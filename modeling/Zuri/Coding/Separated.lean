import Mathlib.Data.List.Basic

/-!
Texts of two parts with a separator between them. Where the separator is not in the first part the
parts are known from the whole.
-/

namespace Separated

variable {α : Type} {sep : α}

theorem parts_inj {a b a' b' : List α} (ha : sep ∉ a) (ha' : sep ∉ a')
    (heq : a ++ sep :: b = a' ++ sep :: b') : a = a' ∧ b = b' := by
  induction a generalizing a' with
  | nil =>
    cases a' with
    | nil => exact ⟨rfl, (List.cons.inj heq).2⟩
    | cons c a' => exact absurd ((List.cons.inj heq).1 ▸ List.mem_cons_self) ha'
  | cons c a ih =>
    cases a' with
    | nil => exact absurd ((List.cons.inj heq).1 ▸ List.mem_cons_self) ha
    | cons c' a' =>
      obtain ⟨rfl, hrest⟩ := List.cons.inj heq
      obtain ⟨rfl, rfl⟩ := ih (fun h => ha (List.mem_cons_of_mem _ h))
        (fun h => ha' (List.mem_cons_of_mem _ h)) hrest
      exact ⟨rfl, rfl⟩

/-- So it is where the separator is not in the second part. -/
theorem parts_inj_right {a b a' b' : List α} (hb : sep ∉ b) (hb' : sep ∉ b')
    (heq : a ++ sep :: b = a' ++ sep :: b') : a = a' ∧ b = b' := by
  have hreverse := congrArg List.reverse heq
  simp only [List.reverse_append, List.reverse_cons, List.append_assoc,
    List.singleton_append] at hreverse
  obtain ⟨hright, hleft⟩ := parts_inj (by simpa using hb) (by simpa using hb') hreverse
  exact ⟨List.reverse_inj.1 hleft, List.reverse_inj.1 hright⟩

end Separated
