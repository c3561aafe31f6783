import Mathlib.Data.List.Infix

/-! Logs with the newest entry first. A suffix of the log is a time; an entry at the head of a
suffix is older than those at the heads of longer ones. -/

namespace Since
variable {α : Type*} {p : α → Prop} {e x : α} {log past : List α}

/-- The log has the entry, and the entries that meet `p` are all older. -/
def NoneSince (p : α → Prop) (e : α) (log : List α) : Prop :=
  ∃ old, e :: old <:+ log ∧ ∀ x w, p x → x :: w <:+ log → x :: w <:+ old

theorem exists_suffix_of_mem (h : e ∈ log) : ∃ old, e :: old <:+ log := by
  obtain ⟨recent, old, rfl⟩ := List.append_of_mem h
  exact ⟨old, recent, rfl⟩

theorem noneSince_head (he : ¬p e) : NoneSince p e (e :: log) := by
  refine ⟨log, List.suffix_rfl, fun x w hx hw => ?_⟩
  rcases List.suffix_cons_iff.mp hw with heq | hw
  · cases heq
    exact absurd hx he
  · exact hw

theorem NoneSince.cons (h : NoneSince p e log) (hx : ¬p x) : NoneSince p e (x :: log) := by
  obtain ⟨old, hold, hall⟩ := h
  refine ⟨old, hold.trans (List.suffix_cons x log), fun y w hy hw => ?_⟩
  rcases List.suffix_cons_iff.mp hw with heq | hw
  · cases heq
    exact absurd hy hx
  · exact hall y w hy hw

end Since
