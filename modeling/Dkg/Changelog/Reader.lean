import Dkg.Changelog.Log
import Mathlib.Data.Finset.Card
import Mathlib.Order.Interval.Finset.Nat

/-!
`readChanges`: pages of the changelog by direct lookup of entries, over windows that may have
holes below the counter of the reader and markers of another writer above it.
-/

namespace Dkg.Changelog

variable {Graph : Type}

def distinctSeqCoverage (page : List (ChangeRecord Graph)) : ℕ :=
  (page.map ChangeRecord.seq).dedup.length

variable [DecidableEq Graph]

namespace Log

end Log

section Windows
variable {log : Log Graph} {lo mid mid' hi : ℕ} {out page : List (ChangeRecord Graph)}

/-- Exactly the markers with numbers from `lo` to before `hi`, in their order. -/
structure Window (log : Log Graph) (lo hi : ℕ) (out : List (ChangeRecord Graph)) : Prop where
  mem : ∀ r, r ∈ out ↔ r ∈ log.markers ∧ lo ≤ r.seq ∧ r.seq < hi
  sorted : out.Pairwise fun a b => a.seq ≤ b.seq
  nodup : out.Nodup

theorem Window.empty (h : hi ≤ lo) : Window log lo hi [] where
  mem r := by
    simp only [List.not_mem_nil, false_iff, not_and, not_lt]
    omega
  sorted := List.Pairwise.nil
  nodup := List.nodup_nil

/-- Two windows one after the other, with no number between them that matters. -/
theorem Window.append (h : Window log lo mid out) (h' : Window log mid' hi page)
    (hle : mid ≤ mid')
    (hsplit : ∀ n, lo ≤ n ∧ n < hi ↔ (lo ≤ n ∧ n < mid) ∨ (mid' ≤ n ∧ n < hi)) :
    Window log lo hi (out ++ page) where
  mem r := by
    rw [List.mem_append, h.mem, h'.mem, hsplit, and_or_left]
  sorted := by
    refine List.pairwise_append.mpr ⟨h.sorted, h'.sorted, fun a ha b hb => ?_⟩
    have hlt := ((h.mem a).mp ha).2.2
    have hge := ((h'.mem b).mp hb).2.1
    omega
  nodup := by
    refine List.nodup_append.mpr ⟨h.nodup, h'.nodup, fun a ha b hb hab => ?_⟩
    have hlt := ((h.mem a).mp ha).2.2
    have hge := ((h'.mem b).mp hb).2.1
    rw [← hab] at hge
    omega

/-- How many numbers of a range the log holds. -/
def countIn (log : Log Graph) (lo hi : ℕ) : ℕ :=
  ((log.markers.map ChangeRecord.seq).toFinset.filter fun n => lo ≤ n ∧ n < hi).card

theorem countIn_add (log : Log Graph) (h : lo ≤ mid) (h' : mid ≤ hi) :
    countIn log lo hi = countIn log lo mid + countIn log mid hi := by
  unfold countIn
  rw [← Finset.card_union_of_disjoint, ← Finset.filter_or]
  · refine congrArg Finset.card (Finset.filter_congr fun n _ => ?_)
    omega
  · refine Finset.disjoint_filter.mpr fun n _ hn hn' => ?_
    omega

theorem countIn_mono (log : Log Graph) (h : lo ≤ mid) (h' : mid ≤ hi) :
    countIn log lo mid ≤ countIn log lo hi := by
  rw [countIn_add log h h']
  exact Nat.le_add_right _ _

theorem countIn_pos {r : ChangeRecord Graph} (hr : r ∈ log.markers) (h : lo ≤ r.seq)
    (h' : r.seq < hi) : 0 < countIn log lo hi :=
  Finset.card_pos.mpr ⟨r.seq, Finset.mem_filter.mpr
    ⟨List.mem_toFinset.mpr (List.mem_map_of_mem hr), h, h'⟩⟩

theorem Window.coverage (h : Window log lo hi page) :
    distinctSeqCoverage page = countIn log lo hi := by
  rw [distinctSeqCoverage, countIn, ← List.card_toFinset]
  refine congrArg Finset.card (Finset.ext fun n => ?_)
  simp only [List.mem_toFinset, List.mem_map, Finset.mem_filter, h.mem]
  constructor
  · rintro ⟨r, ⟨hr, hn⟩, rfl⟩
    exact ⟨⟨r, hr, rfl⟩, hn⟩
  · rintro ⟨⟨r, hr, rfl⟩, hn⟩
    exact ⟨r, ⟨hr, hn⟩, rfl⟩

end Windows

section Reading
variable {log : Log Graph} {seq since start need cap : ℕ} {out : List (ChangeRecord Graph)}

/-- Exactly the markers whose number is among the `cap` smallest above `since`, in their
order. -/
structure ReadsExactly (log : Log Graph) (since cap : ℕ) (out : List (ChangeRecord Graph)) :
    Prop where
  mem : ∀ r, r ∈ out ↔
    r ∈ log.markers ∧ since < r.seq ∧ countIn log (since + 1) (r.seq + 1) ≤ cap
  sorted : out.Pairwise fun a b => a.seq ≤ b.seq
  nodup : out.Nodup
  full : distinctSeqCoverage out = cap ∨ ∀ r ∈ log.markers, since < r.seq → r ∈ out

/-- The page is full. -/
theorem Window.full (h : Window log (since + 1) start out) (hstart : since < start)
    (hcount : countIn log (since + 1) start = cap) : ReadsExactly log since cap out where
  mem r := by
    rw [h.mem]
    constructor
    · rintro ⟨hr, hlo, hhi⟩
      have hmono := countIn_mono log (show since + 1 ≤ r.seq + 1 by omega) hhi
      exact ⟨hr, hlo, hmono.trans hcount.le⟩
    · rintro ⟨hr, hlo, hle⟩
      refine ⟨hr, hlo, ?_⟩
      by_contra hge
      have hadd := countIn_add log (show since + 1 ≤ start from hstart) (show start ≤ r.seq + 1 by omega)
      have hpos := countIn_pos hr (not_lt.mp hge) (show r.seq < r.seq + 1 by omega)
      omega
  sorted := h.sorted
  nodup := h.nodup
  full := .inl (h.coverage.trans hcount)

/-- The log is drained. -/
theorem Window.drained (h : Window log (since + 1) start out)
    (hcount : countIn log (since + 1) start ≤ cap) (hnone : ∀ r ∈ log.markers, r.seq < start) :
    ReadsExactly log since cap out where
  mem r := by
    rw [h.mem]
    constructor
    · rintro ⟨hr, hlo, hhi⟩
      have hmono := countIn_mono log (show since + 1 ≤ r.seq + 1 by omega) hhi
      exact ⟨hr, hlo, hmono.trans hcount⟩
    · rintro ⟨hr, hlo, -⟩
      exact ⟨hr, hlo, hnone r hr⟩
  sorted := h.sorted
  nodup := h.nodup
  full := .inr fun r hr hlo => (h.mem r).mpr ⟨hr, hlo, hnone r hr⟩

end Reading

end Dkg.Changelog
