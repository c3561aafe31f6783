import Dkg.Lib.Checked
import Dkg.Lib.DiffArray

/-!
`ContextGraphValueStorage`: the value each context graph carries per epoch, and the value
of all graphs together. Both are difference arrays whose past is frozen lazily, each up to
its own epoch.
-/

namespace Dkg.ValueLedger
open Revert DiffArray Function

inductive Err where
  | zeroLifetime
  | zeroValue
  | negativeCumulative
  | backfillForbidden
  | futureOrCurrentEpoch
  /-- Checked arithmetic and `SafeCast`. -/
  | panic
  deriving DecidableEq, Repr

/-- The diffs, the frozen values and the freeze line: of one graph, or of all. -/
structure Ledger where
  diff : ℕ → ℤ
  cumulative : ℕ → ℕ
  lastFinalizedEpoch : ℕ

structure Storage where
  cgValue : ℕ → Ledger
  totalValue : Ledger

def Ledger.empty : Ledger where
  diff := fun _ => 0
  cumulative := fun _ => 0
  lastFinalizedEpoch := 0

def empty : Storage where
  cgValue := fun _ => .empty
  totalValue := .empty

/-- `running += diff`, refused below zero. -/
def accrue (running d : ℤ) : Except Err ℤ := do
  let running ← Checked.addInt 256 running d .panic
  require (¬running < 0) .negativeCumulative
  return running

/-- The loop of the finalizers: `n` rounds from epoch `e`. -/
def finalizeLoop (diff : ℕ → ℤ) : ℕ → ℕ → ℤ → (ℕ → ℕ) → Except Err (ℕ → ℕ)
  | 0, _, _, cumulative => .ok cumulative
  | n + 1, e, running, cumulative => do
    let running ← accrue running (diff e)
    finalizeLoop diff n (e + 1) running (update cumulative e (Checked.toUint 256 running))

/-- The loop of the simulations. -/
def simulateLoop (diff : ℕ → ℤ) : ℕ → ℕ → ℤ → Except Err ℕ
  | 0, _, running => .ok (Checked.toUint 256 running)
  | n + 1, e, running => do
    let running ← accrue running (diff e)
    simulateLoop diff n (e + 1) running

namespace Ledger

/-- The running value at the freeze line. -/
def running (l : Ledger) : ℤ :=
  if l.lastFinalizedEpoch > 0 then Checked.toInt 256 (l.cumulative l.lastFinalizedEpoch) else 0

def finalizeUpTo (l : Ledger) (epoch : ℕ) : Except Err Ledger :=
  if epoch ≤ l.lastFinalizedEpoch then .ok l
  else do
    let cumulative ← finalizeLoop l.diff (epoch - l.lastFinalizedEpoch) (l.lastFinalizedEpoch + 1)
      l.running l.cumulative
    return { l with cumulative, lastFinalizedEpoch := epoch }

def simulate (l : Ledger) (epoch : ℕ) : Except Err ℕ :=
  if epoch ≤ l.lastFinalizedEpoch then .ok (l.cumulative epoch)
  else simulateLoop l.diff (epoch - l.lastFinalizedEpoch) (l.lastFinalizedEpoch + 1) l.running

def valueAtEpoch (l : Ledger) (epoch : ℕ) : Except Err ℕ :=
  if epoch ≤ l.lastFinalizedEpoch then .ok (l.cumulative epoch) else l.simulate epoch

/-- The paired writes of an add: the value starts, and ends with its lifetime. -/
def addDiff (l : Ledger) (startEpoch lifetime : ℕ) (perEpoch : ℤ) : Except Err Ledger := do
  let atStart ← Checked.addInt 256 (l.diff startEpoch) perEpoch .panic
  let diff := update l.diff startEpoch atStart
  let endEpoch ← Checked.add 256 startEpoch lifetime .panic
  let atEnd ← Checked.addInt 256 (diff endEpoch) (-perEpoch) .panic
  return { l with diff := update diff endEpoch atEnd }

end Ledger

def setCG (s : Storage) (cgId : ℕ) (l : Ledger) : Storage :=
  { s with cgValue := update s.cgValue cgId l }

/-- `_finalizeCGValueUpTo`. -/
def finalizeCG (s : Storage) (cgId epoch : ℕ) : Except Err Storage := do
  let l ← (s.cgValue cgId).finalizeUpTo epoch
  return setCG s cgId l

/-- `_finalizeGlobalValueUpTo`. -/
def finalizeGlobal (s : Storage) (epoch : ℕ) : Except Err Storage := do
  let l ← s.totalValue.finalizeUpTo epoch
  return { s with totalValue := l }

def finalizeCGValueUpTo (s : Storage) (currentEpoch cgId epoch : ℕ) : Except Err Storage := do
  require (¬epoch ≥ currentEpoch) .futureOrCurrentEpoch
  if epoch ≤ (s.cgValue cgId).lastFinalizedEpoch then return s else finalizeCG s cgId epoch

def finalizeGlobalValueUpTo (s : Storage) (currentEpoch epoch : ℕ) : Except Err Storage := do
  require (¬epoch ≥ currentEpoch) .futureOrCurrentEpoch
  if epoch ≤ s.totalValue.lastFinalizedEpoch then return s else finalizeGlobal s epoch

/-- An add freezes the past of its graph and of the total. -/
def finalizePast (s : Storage) (currentEpoch cgId : ℕ) : Except Err Storage :=
  if currentEpoch > 1 then do
    let s ← finalizeCG s cgId (currentEpoch - 1)
    finalizeGlobal s (currentEpoch - 1)
  else .ok s

def addCGValueForEpochRange (s : Storage) (currentEpoch cgId startEpoch lifetime value : ℕ) :
    Except Err Storage := do
  require (lifetime ≠ 0) .zeroLifetime
  require (value ≠ 0) .zeroValue
  require (¬startEpoch < currentEpoch) .backfillForbidden
  let perEpoch := value / lifetime
  require (perEpoch < 2 ^ 255) .panic
  let cg ← (s.cgValue cgId).addDiff startEpoch lifetime perEpoch
  let total ← s.totalValue.addDiff startEpoch lifetime perEpoch
  finalizePast { setCG s cgId cg with totalValue := total } currentEpoch cgId

def getCGValueAtEpoch (s : Storage) (cgId epoch : ℕ) : Except Err ℕ :=
  (s.cgValue cgId).valueAtEpoch epoch

def getTotalValueAtEpoch (s : Storage) (epoch : ℕ) : Except Err ℕ :=
  s.totalValue.valueAtEpoch epoch

inductive Op where
  | addCGValueForEpochRange (cgId startEpoch lifetime value : ℕ)
  | finalizeCGValueUpTo (cgId epoch : ℕ)
  | finalizeGlobalValueUpTo (epoch : ℕ)

/-- A call, at the epoch the clock contract reports; epochs count from 1. -/
structure Call where
  currentEpoch : ℕ
  epoch_pos : 1 ≤ currentEpoch
  op : Op

def step (s : Storage) (c : Call) : Except Err Storage :=
  match c.op with
  | .addCGValueForEpochRange cgId startEpoch lifetime value =>
    addCGValueForEpochRange s c.currentEpoch cgId startEpoch lifetime value
  | .finalizeCGValueUpTo cgId epoch => finalizeCGValueUpTo s c.currentEpoch cgId epoch
  | .finalizeGlobalValueUpTo epoch => finalizeGlobalValueUpTo s c.currentEpoch epoch

/-- What a call contributes to a graph in an epoch. -/
def Call.contribution (cgId epoch : ℕ) (c : Call) : ℕ :=
  match c.op with
  | .addCGValueForEpochRange id startEpoch lifetime value =>
    if id = cgId ∧ startEpoch ≤ epoch ∧ epoch < startEpoch + lifetime then value / lifetime else 0
  | _ => 0

/-- The contributions of a list of accepted calls to a graph in an epoch. -/
def liveValue (calls : List Call) (cgId epoch : ℕ) : ℕ :=
  (calls.map (Call.contribution cgId epoch)).sum

end Dkg.ValueLedger
