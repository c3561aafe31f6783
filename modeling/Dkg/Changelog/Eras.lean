import Dkg.Changelog.Log

/-!
Eras of the changelog. A cursor is an era and a number. When the store is replaced by an older
snapshot the guard, which is kept elsewhere, sees the numbers fall back under one era and a new
era is drawn; it remembers a single era, so a snapshot of an era before the last goes unnoticed.
-/

namespace Dkg.Changelog

open List Function

variable {Graph Era : Type}

/-- The reserved graph. -/
structure Store (Graph Era : Type) where
  markers : List (ChangeRecord Graph)
  era : Option Era
  deriving DecidableEq, Repr

/-- The row of `changelog_era`. -/
structure Guard (Era : Type) where
  era : Era
  highSeq : ℕ
  deriving DecidableEq, Repr

/-- `seq` and `eraValue` once seeded; also what `changelogHead` reports. -/
structure Head (Era : Type) where
  era : Era
  seq : ℕ
  deriving DecidableEq, Repr

/-- A head reported, with the markers of that moment. -/
structure Report (Graph Era : Type) where
  head : Head Era
  markers : List (ChangeRecord Graph)
  deriving DecidableEq, Repr

structure Node (Graph Era : Type) where
  store : Store Graph Era
  guard : Option (Guard Era)
  memory : Option (Head Era)
  /-- Every content the store has had. -/
  snapshots : List (Store Graph Era)
  /-- How many eras were drawn. -/
  drawn : ℕ
  reports : List (Report Graph Era)
  deriving Repr

inductive Event (Graph : Type) where
  | write (specs : List (Graph × ChangeOp))
  | changelogHead
  | restart
  /-- The store is replaced by the snapshot at this place. -/
  | replace (snapshot : ℕ)
  deriving Repr

section Definitions
variable (randomUUID : ℕ → Era)

def Node.initial (store : Store Graph Era) : Node Graph Era :=
  ⟨store, none, none, [store], 0, []⟩

namespace Node

def put (n : Node Graph Era) (store : Store Graph Era) : Node Graph Era :=
  { n with store, snapshots := n.snapshots ++ [store] }

/-- Delete any, then insert. -/
def writeEra (n : Node Graph Era) (era : Era) : Node Graph Era :=
  (n.put ⟨n.store.markers, none⟩).put ⟨n.store.markers, some era⟩

/-- A new era, written to the store. -/
def drawEra (n : Node Graph Era) : Node Graph Era :=
  { n.writeEra (randomUUID n.drawn) with drawn := n.drawn + 1 }

variable [DecidableEq Era]

def applyEraGuard (n : Node Graph Era) (era : Era) (seq : ℕ) : Node Graph Era × Head Era :=
  match n.guard with
  | none => ({ n with guard := some ⟨era, seq⟩ }, ⟨era, seq⟩)
  | some prior =>
    if prior.era = era ∧ seq < prior.highSeq then
      let rotated := randomUUID n.drawn
      ({ n.drawEra randomUUID with guard := some ⟨rotated, seq⟩ }, ⟨rotated, seq⟩)
    else
      let highSeq := if prior.era = era then max seq prior.highSeq else seq
      ({ n with guard := some ⟨era, highSeq⟩ }, ⟨era, seq⟩)

def seedOnce (n : Node Graph Era) : Node Graph Era × Head Era :=
  let seq := headSeq n.store.markers
  match n.store.era with
  | some era => n.applyEraGuard randomUUID era seq
  | none => (n.drawEra randomUUID).applyEraGuard randomUUID (randomUUID n.drawn) seq

def ensureSeeded (n : Node Graph Era) : Node Graph Era × Head Era :=
  match n.memory with
  | some memory => (n, memory)
  | none =>
    let (n, memory) := n.seedOnce randomUUID
    ({ n with memory := some memory }, memory)

/-- The markers of a committed write, and `noteHighWater`. -/
def write (n : Node Graph Era) (specs : List (Graph × ChangeOp)) : Node Graph Era :=
  if specs = [] then n
  else
    let (n, memory) := n.ensureSeeded randomUUID
    let n := n.put { n.store with markers := n.store.markers ++ allocate memory.seq specs }
    let seq := max memory.seq (memory.seq + specs.length)
    { n with memory := some ⟨memory.era, seq⟩, guard := some ⟨memory.era, seq⟩ }

def changelogHead (n : Node Graph Era) : Node Graph Era × Head Era := n.ensureSeeded randomUUID

def step (n : Node Graph Era) : Event Graph → Node Graph Era
  | .write specs => n.write randomUUID specs
  | .changelogHead =>
    let (n, head) := n.changelogHead randomUUID
    { n with reports := n.reports ++ [⟨head, n.store.markers⟩] }
  | .restart => { n with memory := none }
  | .replace snapshot =>
    match n.snapshots[snapshot]? with
    | some store => n.put store
    | none => n

def run (n : Node Graph Era) (events : List (Event Graph)) : Node Graph Era :=
  events.foldl (step randomUUID) n

end Node

end Definitions

section Histories
variable {randomUUID : ℕ → Era} {n : Node Graph Era} {era : Era}
  {line : List (ChangeRecord Graph)}

/-- What was seen of an era lies on one line of markers. -/
structure OnLine (n : Node Graph Era) (era : Era) (line : List (ChangeRecord Graph)) : Prop where
  snapshots : ∀ s ∈ n.snapshots, s.era = some era →
    Timeline.Extends ChangeRecord.seq s.markers line
  reports : ∀ r ∈ n.reports, r.head.era = era → Timeline.Extends ChangeRecord.seq r.markers line

structure Unused (n : Node Graph Era) (era : Era) : Prop where
  snapshots : ∀ s ∈ n.snapshots, s.era ≠ some era
  reports : ∀ r ∈ n.reports, r.head.era ≠ era
  guard : ∀ g, n.guard = some g → g.era ≠ era

structure Sound (randomUUID : ℕ → Era) (n : Node Graph Era) : Prop where
  kept : n.store ∈ n.snapshots
  fresh : ∀ k, n.drawn ≤ k → Unused n (randomUUID k)
  counted : ∀ r ∈ n.reports, r.head.seq = headSeq r.markers
  chain : ∀ r₁ ∈ n.reports, ∀ r₂ ∈ n.reports, r₁.head.era = r₂.head.era →
    Timeline.Extends ChangeRecord.seq r₁.markers r₂.markers ∨
      Timeline.Extends ChangeRecord.seq r₂.markers r₁.markers

/-- The store, the memory and the guard agree. -/
structure Running (n : Node Graph Era) (era : Era) (line : List (ChangeRecord Graph)) : Prop where
  store : n.store = ⟨line, some era⟩
  memory : n.memory = some ⟨era, headSeq line⟩
  guard : n.guard = some ⟨era, headSeq line⟩
  onLine : OnLine n era line

/-- Nothing in memory; the store may lie behind the guard, but not under another era. -/
structure Down (n : Node Graph Era) : Prop where
  memory : n.memory = none
  blank : n.guard = none → n.reports = [] ∧ ∀ s ∈ n.snapshots, s = n.store
  guarded : ∀ g, n.guard = some g → (n.store.era = none ∨ n.store.era = some g.era) ∧
    ∃ line, headSeq line = g.highSeq ∧ OnLine n g.era line

theorem Unused.onLine (h : Unused n era) : OnLine n era line where
  snapshots s hs he := absurd he (h.snapshots s hs)
  reports r hr he := absurd he (h.reports r hr)

theorem OnLine.extend {line' : List (ChangeRecord Graph)} (h : OnLine n era line)
    (hline : Timeline.Extends ChangeRecord.seq line line') : OnLine n era line' where
  snapshots s hs he := (h.snapshots s hs he).trans hline
  reports r hr he := (h.reports r hr he).trans hline

theorem OnLine.put {s : Store Graph Era} (h : OnLine n era line)
    (hs : s.era = some era → Timeline.Extends ChangeRecord.seq s.markers line) :
    OnLine (n.put s) era line where
  snapshots s' hs' := by
    rcases mem_append.mp hs' with hs' | hs'
    · exact h.snapshots s' hs'
    · rw [mem_singleton.mp hs']
      exact hs
  reports := h.reports

theorem Unused.put {s : Store Graph Era} (h : Unused n era) (hs : s.era ≠ some era) :
    Unused (n.put s) era where
  snapshots s' hs' := by
    rcases mem_append.mp hs' with hs' | hs'
    · exact h.snapshots s' hs'
    · rw [mem_singleton.mp hs']
      exact hs
  reports := h.reports
  guard := h.guard

theorem Sound.put {s : Store Graph Era} (h : Sound randomUUID n)
    (hs : ∀ k, n.drawn ≤ k → s.era ≠ some (randomUUID k)) : Sound randomUUID (n.put s) where
  kept := mem_append_right _ (mem_singleton_self s)
  fresh k hk := (h.fresh k hk).put (hs k hk)
  counted := h.counted
  chain := h.chain

theorem Sound.drawEra (huuid : Injective randomUUID) (h : Sound randomUUID n) :
    Sound randomUUID (n.drawEra randomUUID) ∧
      OnLine (n.drawEra randomUUID) (randomUUID n.drawn) n.store.markers := by
  have hblank : Sound randomUUID (n.put ⟨n.store.markers, none⟩) := h.put (by simp)
  have hunused := hblank.fresh n.drawn le_rfl
  constructor
  · refine ⟨mem_append_right _ (mem_singleton_self _), fun k hk => ?_, h.counted, h.chain⟩
    have hold := hblank.fresh k (Nat.le_of_succ_le hk)
    have hne : randomUUID n.drawn ≠ randomUUID k := fun he => by
      have heq := huuid he
      change n.drawn + 1 ≤ k at hk
      omega
    have hput := hold.put (s := ⟨n.store.markers, some (randomUUID n.drawn)⟩) (by simpa using hne)
    exact ⟨hput.snapshots, hput.reports, hput.guard⟩
  · have honLine : OnLine (n.put ⟨n.store.markers, none⟩) (randomUUID n.drawn) n.store.markers :=
      hunused.onLine
    have hput := honLine.put (s := ⟨n.store.markers, some (randomUUID n.drawn)⟩)
      fun _ => Timeline.Extends.refl _
    exact ⟨hput.snapshots, hput.reports⟩

/-- Down or running, on a history of its own. -/
def Inv (randomUUID : ℕ → Era) (n : Node Graph Era) : Prop :=
  Sound randomUUID n ∧ (Down n ∨ ∃ era line, Running n era line)

theorem inv_initial {s : Store Graph Era} (hs : ∀ k, s.era ≠ some (randomUUID k)) :
    Inv randomUUID (.initial s) := by
  refine ⟨⟨mem_singleton_self s, fun k _ => ⟨?_, by simp [Node.initial], by
    simp [Node.initial]⟩, by simp [Node.initial], by simp [Node.initial]⟩, .inl
    ⟨rfl, fun _ => ⟨rfl, ?_⟩, by simp [Node.initial]⟩⟩
  · simpa [Node.initial] using hs k
  · simp [Node.initial]

variable [DecidableEq Era]

/-- Seeding goes on with the era of the store or draws a new one. -/
theorem seedOnce_cases (h : Sound randomUUID n) (hdown : Down n) :
    (∃ era, n.store.era = some era ∧ OnLine n era n.store.markers ∧
      n.seedOnce randomUUID = ({ n with guard := some ⟨era, headSeq n.store.markers⟩ },
        ⟨era, headSeq n.store.markers⟩)) ∨
    n.seedOnce randomUUID =
      ({ n.drawEra randomUUID with
          guard := some ⟨randomUUID n.drawn, headSeq n.store.markers⟩ },
        ⟨randomUUID n.drawn, headSeq n.store.markers⟩) := by
  cases hera : n.store.era with
  | none =>
    right
    have hguard : (n.drawEra randomUUID).guard = n.guard := rfl
    simp only [Node.seedOnce, hera, Node.applyEraGuard, hguard]
    cases hg : n.guard with
    | none => rfl
    | some prior =>
      have hne : prior.era ≠ randomUUID n.drawn := (h.fresh n.drawn le_rfl).guard prior hg
      simp [hne]
  | some era =>
    simp only [Node.seedOnce, hera, Node.applyEraGuard]
    cases hg : n.guard with
    | none =>
      obtain ⟨hreports, hsame⟩ := hdown.blank hg
      refine .inl ⟨era, rfl, ⟨fun s hs _ => ?_, fun r hr => ?_⟩, rfl⟩
      · rw [hsame s hs]
        exact Timeline.Extends.refl _
      · rw [hreports] at hr
        cases hr
    | some prior =>
      obtain ⟨hprior, line, htop, honLine⟩ := hdown.guarded prior hg
      obtain rfl : era = prior.era := by simpa [hera] using hprior
      by_cases hback : headSeq n.store.markers < prior.highSeq
      · right
        simp [hback]
      · left
        have hline : n.store.markers = line :=
          (honLine.snapshots _ h.kept hera).eq_of_top_le (htop.trans_le (not_lt.mp hback))
        refine ⟨prior.era, rfl, hline ▸ honLine, ?_⟩
        simp [hline, htop]

theorem ensureSeeded_running (huuid : Injective randomUUID) (h : Sound randomUUID n)
    (hdown : Down n) :
    ∃ era, (n.ensureSeeded randomUUID).2 = ⟨era, headSeq n.store.markers⟩ ∧
      Sound randomUUID (n.ensureSeeded randomUUID).1 ∧
      Running (n.ensureSeeded randomUUID).1 era n.store.markers := by
  simp only [Node.ensureSeeded, hdown.memory]
  rcases seedOnce_cases h hdown with ⟨era, hera, honLine, hseed⟩ | hseed
  · rw [hseed]
    refine ⟨era, rfl, ⟨h.kept, fun k hk => ⟨(h.fresh k hk).snapshots, (h.fresh k hk).reports, ?_⟩,
      h.counted, h.chain⟩, ?_, rfl, rfl, honLine.snapshots, honLine.reports⟩
    · rintro g ⟨⟩ he
      exact (h.fresh k hk).snapshots _ h.kept (he ▸ hera)
    · rw [← hera]
  · rw [hseed]
    obtain ⟨hsound, honLine⟩ := h.drawEra huuid
    refine ⟨randomUUID n.drawn, rfl, ⟨hsound.kept, fun k hk => ⟨(hsound.fresh k hk).snapshots,
      (hsound.fresh k hk).reports, ?_⟩, hsound.counted, hsound.chain⟩, rfl, rfl, rfl,
      honLine.snapshots, honLine.reports⟩
    rintro g ⟨⟩ he
    exact (hsound.fresh k hk).snapshots _ hsound.kept (congrArg some he)

theorem Inv.seeded (huuid : Injective randomUUID) (h : Inv randomUUID n) :
    ∃ n' era line, n.ensureSeeded randomUUID = (n', ⟨era, headSeq line⟩) ∧
      Sound randomUUID n' ∧ Running n' era line := by
  obtain ⟨hsound, hdown | ⟨era, line, hrun⟩⟩ := h
  · obtain ⟨era, hhead, hsound', hrun⟩ := ensureSeeded_running huuid hsound hdown
    exact ⟨_, era, n.store.markers, Prod.ext rfl hhead, hsound', hrun⟩
  · exact ⟨n, era, line, by simp only [Node.ensureSeeded, hrun.memory], hsound, hrun⟩

theorem Inv.write (huuid : Injective randomUUID) (h : Inv randomUUID n)
    (specs : List (Graph × ChangeOp)) : Inv randomUUID (n.write randomUUID specs) := by
  unfold Node.write
  split_ifs with hspecs
  · exact h
  obtain ⟨n', era, line, hseeded, hsound, hrun⟩ := h.seeded huuid
  let line' := line ++ allocate (headSeq line) specs
  have hextends : Timeline.Extends ChangeRecord.seq line line' :=
    ⟨_, rfl, fun r hr => (mem_allocate hr).1⟩
  have htop : headSeq line' = max (headSeq line) (headSeq line + specs.length) := by
    rw [headSeq, Timeline.top_append]
    exact congrArg (max (headSeq line)) (headSeq_allocate hspecs)
  have hstore : n'.store.era = some era := by rw [hrun.store]
  have hput := hsound.put (s := ⟨line', some era⟩) fun k hk he =>
    (hsound.fresh k hk).snapshots _ hsound.kept (hstore.trans he)
  have honLine := (hrun.onLine.extend hextends).put (s := ⟨line', some era⟩)
    fun _ => Timeline.Extends.refl _
  rw [hseeded]
  dsimp only
  rw [hrun.store, ← htop]
  refine ⟨⟨hput.kept, fun k hk => ⟨(hput.fresh k hk).snapshots, (hput.fresh k hk).reports, ?_⟩,
    hput.counted, hput.chain⟩, .inr ⟨era, line', rfl, rfl, rfl, honLine.snapshots,
    honLine.reports⟩⟩
  rintro g ⟨⟩ he
  exact (hput.fresh k hk).snapshots _ hput.kept (congrArg some he)

theorem Inv.changelogHead (huuid : Injective randomUUID) (h : Inv randomUUID n) :
    Inv randomUUID (n.step randomUUID .changelogHead) := by
  obtain ⟨n', era, line, hseeded, hsound, hrun⟩ := h.seeded huuid
  have hera : ∀ k, n'.drawn ≤ k → era ≠ randomUUID k := fun k hk he =>
    (hsound.fresh k hk).snapshots _ hsound.kept (by rw [hrun.store, he])
  have hbelow : ∀ r ∈ n'.reports, r.head.era = era →
      Timeline.Extends ChangeRecord.seq r.markers line := hrun.onLine.reports
  have hmarkers : n'.store.markers = line := congrArg Store.markers hrun.store
  simp only [Node.step, Node.changelogHead, hseeded, hmarkers]
  refine ⟨⟨hsound.kept, fun k hk => ⟨(hsound.fresh k hk).snapshots, ?_, (hsound.fresh k hk).guard⟩,
    ?_, ?_⟩, .inr ⟨era, line, hrun.store, hrun.memory, hrun.guard, hrun.onLine.snapshots, ?_⟩⟩
  · simp only [forall_mem_append, forall_mem_singleton]
    exact ⟨(hsound.fresh k hk).reports, hera k hk⟩
  · simp only [forall_mem_append, forall_mem_singleton]
    exact ⟨hsound.counted, trivial⟩
  · simp only [forall_mem_append, forall_mem_singleton]
    exact ⟨fun r₁ h₁ => ⟨hsound.chain r₁ h₁, fun he => .inl (hbelow r₁ h₁ he)⟩,
      fun r₂ h₂ he => .inr (hbelow r₂ h₂ he.symm), fun _ => .inl (Timeline.Extends.refl _)⟩
  · simp only [forall_mem_append, forall_mem_singleton]
    exact ⟨hbelow, fun _ => Timeline.Extends.refl _⟩

theorem Inv.restart (h : Inv randomUUID n) : Inv randomUUID (n.step randomUUID .restart) := by
  obtain ⟨hsound, hstate⟩ := h
  refine ⟨⟨hsound.kept, fun k hk => ⟨(hsound.fresh k hk).snapshots, (hsound.fresh k hk).reports,
    (hsound.fresh k hk).guard⟩, hsound.counted, hsound.chain⟩, .inl ?_⟩
  rcases hstate with hdown | ⟨era, line, hrun⟩
  · refine ⟨rfl, hdown.blank, fun g hg => ?_⟩
    obtain ⟨hera, line, htop, honLine⟩ := hdown.guarded g hg
    exact ⟨hera, line, htop, honLine.snapshots, honLine.reports⟩
  · refine ⟨rfl, fun hg => ?_, fun g hg => ?_⟩
    · have hnone : n.guard = none := hg
      rw [hrun.guard] at hnone
      cases hnone
    · have hsome : n.guard = some g := hg
      rw [hrun.guard] at hsome
      cases hsome
      exact ⟨.inr (congrArg Store.era hrun.store), line, rfl, hrun.onLine.snapshots,
        hrun.onLine.reports⟩

/-- The store is replaced while the node is down, by a snapshot without an era or of the era
that the guard holds. -/
def SameEra (n : Node Graph Era) : Event Graph → Prop
  | .replace snapshot => n.memory = none ∧ ∀ s, n.snapshots[snapshot]? = some s →
      s.era = none ∨ ∀ g, n.guard = some g → s.era = some g.era
  | _ => True

theorem Inv.replace (h : Inv randomUUID n) {snapshot : ℕ} (hsame : SameEra n (.replace snapshot)) :
    Inv randomUUID (n.step randomUUID (.replace snapshot)) := by
  obtain ⟨hmemory, hera⟩ := hsame
  cases hs : n.snapshots[snapshot]? with
  | none =>
    simp only [Node.step, hs]
    exact h
  | some s =>
    simp only [Node.step, hs]
    obtain ⟨hsound, hdown | ⟨era, line, hrun⟩⟩ := h
    · have hmem : s ∈ n.snapshots := mem_of_getElem? hs
      refine ⟨hsound.put fun k hk => (hsound.fresh k hk).snapshots s hmem, .inl
        ⟨hmemory, fun hg => ?_, fun g hg => ?_⟩⟩
      · obtain ⟨hreports, hall⟩ := hdown.blank hg
        refine ⟨hreports, fun s' hs' => ?_⟩
        rcases mem_append.mp hs' with hs' | hs'
        · exact (hall s' hs').trans (hall s hmem).symm
        · exact mem_singleton.mp hs'
      · obtain ⟨-, line, htop, honLine⟩ := hdown.guarded g hg
        exact ⟨(hera s hs).imp_right fun he => he g hg, line, htop,
          honLine.put (honLine.snapshots s hmem)⟩
    · rw [hrun.memory] at hmemory
      cases hmemory

/-- As long as only snapshots of the current era are put back, and only while the node is down,
a cursor stands for one history: two reports of an era hold the same markers up to the number of
the first of them. -/
theorem reports_agree (huuid : Injective randomUUID) (s : Store Graph Era)
    (hs : ∀ k, s.era ≠ some (randomUUID k)) (events : List (Event Graph))
    (h : Runs.Along (Node.step randomUUID) SameEra (.initial s) events)
    {r₁ r₂ : Report Graph Era} (h₁ : r₁ ∈ (Node.run randomUUID (.initial s) events).reports)
    (h₂ : r₂ ∈ (Node.run randomUUID (.initial s) events).reports)
    (hera : r₁.head.era = r₂.head.era) (hseq : r₁.head.seq ≤ r₂.head.seq) :
    ∀ m : ChangeRecord Graph, m.seq ≤ r₁.head.seq → (m ∈ r₁.markers ↔ m ∈ r₂.markers) := by
  have hinv : Inv randomUUID (Node.run randomUUID (.initial s) events) := by
    refine Runs.foldl_invariant (Inv randomUUID) (fun n e hn he => ?_) (inv_initial hs) h
    cases e with
    | write specs => exact hn.write huuid specs
    | changelogHead => exact hn.changelogHead huuid
    | restart => exact hn.restart
    | replace snapshot => exact hn.replace he
  have hcount₁ := hinv.1.counted r₁ h₁
  have hcount₂ := hinv.1.counted r₂ h₂
  intro m hm
  rw [hcount₁] at hm
  rcases hinv.1.chain r₁ h₁ r₂ h₂ hera with hext | hext
  · exact hext.mem_iff hm
  · rw [hcount₁, hcount₂] at hseq
    rw [hext.eq_of_top_le hseq]

end Histories

/-- A write, and the store as it was before it put back. -/
def writeAndRestore : List (Event String) :=
  [.changelogHead, .write [("a", .upsert)], .changelogHead, .restart, .replace 2, .changelogHead]

def writeAgain : List (Event String) := [.write [("b", .upsert)], .changelogHead]

theorem reports_agree_restored :
    let n := Node.run id (.initial ⟨[], none⟩)
      (writeAndRestore ++ writeAgain ++ [.write [("c", .drop)], .changelogHead])
    let b : ChangeRecord String := ⟨1, "b", .upsert⟩
    (⟨⟨1, 1⟩, [b]⟩ : Report String ℕ) ∈ n.reports ∧ ⟨⟨1, 2⟩, [b, ⟨2, "c", .drop⟩]⟩ ∈ n.reports ∧
      ∀ m : ChangeRecord String, m.seq ≤ 1 → (m ∈ [b] ↔ m ∈ [b, ⟨2, "c", .drop⟩]) := by
  intro n b
  have hAlong : Runs.Along (Node.step id) SameEra (.initial (⟨[], none⟩ : Store String ℕ))
      (writeAndRestore ++ writeAgain ++ [.write [("c", .drop)], .changelogHead]) := by
    refine ⟨trivial, trivial, trivial, trivial, ⟨rfl, ?_⟩, trivial, trivial, trivial, trivial,
      trivial, trivial⟩
    rintro s ⟨⟩
    exact .inr fun g hg => by cases hg; rfl
  have h₁ : (⟨⟨1, 1⟩, [b]⟩ : Report String ℕ) ∈ n.reports := by decide
  have h₂ : (⟨⟨1, 2⟩, [b, ⟨2, "c", .drop⟩]⟩ : Report String ℕ) ∈ n.reports := by decide
  exact ⟨h₁, h₂, reports_agree Function.injective_id _ (by simp) _ hAlong h₁ h₂ rfl (by decide)⟩

/-- The first restore draws a new era; the second brings the old one back unnoticed, and another
write gets the number of the first. -/
theorem old_era_returns :
    let n := Node.run id (.initial ⟨[], none⟩)
      (writeAndRestore ++ [.restart, .replace 2] ++ writeAgain)
    (⟨⟨0, 1⟩, [⟨1, "a", .upsert⟩]⟩ : Report String ℕ) ∈ n.reports ∧
      ⟨⟨0, 1⟩, [⟨1, "b", .upsert⟩]⟩ ∈ n.reports := by
  decide

end Dkg.Changelog
