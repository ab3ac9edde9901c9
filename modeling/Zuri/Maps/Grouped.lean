import Mathlib.Data.List.Basic
import Mathlib.Data.List.Nodup

/-!
Multimaps as plain lists of names and values, and the same lists grouped by the keys of the
names: one entry for each key in the order in which the keys first come, with the name that came
first and the values in their order.
-/

namespace Grouped

variable {κ ν β : Type} [DecidableEq κ] (key : ν → κ)

/-- The keys in the order in which they first come. -/
def firsts : List κ → List κ
  | [] => []
  | k :: ks => k :: (firsts ks).filter fun k' => decide (k' ≠ k)

def has (pairs : List (ν × β)) (k : κ) : Prop := ∃ p ∈ pairs, key p.1 = k

instance (pairs : List (ν × β)) (k : κ) : Decidable (has key pairs k) :=
  inferInstanceAs (Decidable (∃ p ∈ pairs, key p.1 = k))

/-- The values of a key. -/
def valuesOf (pairs : List (ν × β)) (k : κ) : List β :=
  (pairs.filter fun p => decide (key p.1 = k)).map Prod.snd

/-- The name that came first of those with a key. -/
def nameOf (pairs : List (ν × β)) (k : κ) : Option ν :=
  (pairs.find? fun p => decide (key p.1 = k)).map Prod.fst

def keys (pairs : List (ν × β)) : List κ := firsts (pairs.map fun p => key p.1)

def group (pairs : List (ν × β)) : List (κ × Option ν × List β) :=
  (keys key pairs).map fun k => (k, nameOf key pairs k, valuesOf key pairs k)

/-- Without the names of a key. -/
def without (pairs : List (ν × β)) (k : κ) : List (ν × β) :=
  pairs.filter fun p => decide (key p.1 ≠ k)

/-- Names that are exchanged for others with the same keys. -/
def rename (f : κ → ν) (pairs : List (ν × β)) : List (ν × β) :=
  pairs.map fun p => (f (key p.1), p.2)

variable {key} {pairs : List (ν × β)} {k : κ}

theorem mem_firsts {ks : List κ} : k ∈ firsts ks ↔ k ∈ ks := by
  induction ks with
  | nil => exact Iff.rfl
  | cons k' ks ih =>
      rw [firsts, List.mem_cons, List.mem_cons, List.mem_filter, ih, decide_eq_true_eq]
      constructor
      · rintro (heq | hmem)
        · exact .inl heq
        · exact .inr hmem.1
      · intro h
        by_cases heq : k = k'
        · exact .inl heq
        · exact .inr ⟨h.resolve_left heq, heq⟩

theorem nodup_firsts (ks : List κ) : (firsts ks).Nodup := by
  induction ks with
  | nil => exact List.nodup_nil
  | cons k ks ih =>
      rw [firsts, List.nodup_cons]
      refine ⟨fun hmem => ?_, ih.filter _⟩
      have hne := (List.mem_filter.mp hmem).2
      exact of_decide_eq_true hne rfl

theorem firsts_snoc (ks : List κ) (k : κ) :
    firsts (ks ++ [k]) = if k ∈ ks then firsts ks else firsts ks ++ [k] := by
  induction ks with
  | nil => rfl
  | cons k' ks ih =>
      rw [List.cons_append, firsts, ih]
      by_cases hmem : k ∈ ks
      · rw [if_pos hmem, if_pos (List.mem_cons_of_mem _ hmem), firsts]
      · rw [if_neg hmem]
        by_cases heq : k = k'
        · rw [if_pos (heq ▸ List.mem_cons_self ..), List.filter_append, firsts, heq]
          simp
        · rw [if_neg (fun h => (List.mem_cons.mp h).elim heq hmem), List.filter_append, firsts]
          simp [heq]

theorem firsts_filter (ks : List κ) (P : κ → Bool) :
    firsts (ks.filter P) = (firsts ks).filter P := by
  induction ks with
  | nil => rfl
  | cons k ks ih =>
      by_cases hP : P k
      · rw [List.filter_cons_of_pos hP, firsts, firsts, List.filter_cons_of_pos hP, ih,
          List.filter_comm]
      · rw [List.filter_cons_of_neg hP, firsts, List.filter_cons_of_neg hP, ih, List.filter_filter]
        apply List.filter_congr
        intro k' _
        by_cases heq : k' = k
        · rw [heq]
          simp [hP]
        · simp [heq]

theorem mem_keys : k ∈ keys key pairs ↔ has key pairs k := by
  rw [keys, mem_firsts, List.mem_map]
  exact Iff.rfl

theorem lookup_map [BEq κ] [LawfulBEq κ] {δ : Type} (f : κ → δ) (ks : List κ) (k : κ) :
    (ks.map fun k' => (k', f k')).lookup k = if k ∈ ks then some (f k) else none := by
  induction ks with
  | nil => rfl
  | cons k' ks ih =>
      rw [List.map_cons, List.lookup_cons]
      by_cases heq : k = k'
      · rw [heq]
        simp
      · have hbeq : (k == k') = false := beq_false_of_ne heq
        rw [hbeq, ih]
        simp [heq]

theorem lookup_group [BEq κ] [LawfulBEq κ] : (group key pairs).lookup k =
    if has key pairs k then some (nameOf key pairs k, valuesOf key pairs k) else none := by
  rw [group, lookup_map (fun k => (nameOf key pairs k, valuesOf key pairs k))]
  by_cases h : has key pairs k
  · rw [if_pos h, if_pos (mem_keys.mpr h)]
  · rw [if_neg h, if_neg (fun hmem => h (mem_keys.mp hmem))]

theorem valuesOf_ne_nil : valuesOf key pairs k ≠ [] ↔ has key pairs k := by
  simp [valuesOf, has]

theorem valuesOf_snoc (n : ν) (v : β) : valuesOf key (pairs ++ [(n, v)]) k =
    valuesOf key pairs k ++ if key n = k then [v] else [] := by
  rw [valuesOf, List.filter_append, List.map_append]
  by_cases h : key n = k <;> simp [valuesOf, h]

theorem nameOf_snoc (n : ν) (v : β) : nameOf key (pairs ++ [(n, v)]) k =
    if has key pairs k then nameOf key pairs k
    else if key n = k then some n else none := by
  unfold nameOf
  rw [List.find?_append]
  cases hfind : pairs.find? (fun p => decide (key p.1 = k)) with
  | some p =>
      have hkey := List.find?_some hfind
      have hp : has key pairs k := ⟨p, List.mem_of_find?_eq_some hfind, of_decide_eq_true hkey⟩
      rw [if_pos hp]
      rfl
  | none =>
      have hp : ¬has key pairs k := fun ⟨p, hmem, hkey⟩ =>
        List.find?_eq_none.mp hfind p hmem (decide_eq_true hkey)
      rw [if_neg hp]
      by_cases h : key n = k <;> simp [h]

/-- Another value goes to the entry of its key, or begins a new entry. -/
theorem group_snoc (n : ν) (v : β) : group key (pairs ++ [(n, v)]) =
    if has key pairs (key n) then
      (group key pairs).map fun e => if e.1 = key n then (e.1, e.2.1, e.2.2 ++ [v]) else e
    else group key pairs ++ [(key n, some n, [v])] := by
  have hsnoc : keys key (pairs ++ [(n, v)]) =
      if has key pairs (key n) then keys key pairs else keys key pairs ++ [key n] := by
    rw [keys, List.map_append, List.map_singleton, firsts_snoc]
    by_cases h : has key pairs (key n)
    · rw [if_pos h, if_pos (mem_firsts.mp (mem_keys.mpr h)), keys]
    · rw [if_neg h, if_neg (fun hmem => h (mem_keys.mp (mem_firsts.mpr hmem))), keys]
  rw [group, hsnoc]
  by_cases h : has key pairs (key n)
  · rw [if_pos h, if_pos h, group, List.map_map]
    apply List.map_congr_left
    intro k hk
    have hhas := mem_keys.mp hk
    rw [valuesOf_snoc, nameOf_snoc, if_pos hhas]
    by_cases heq : key n = k
    · simp [heq]
    · simp [heq, Ne.symm heq]
  · rw [if_neg h, if_neg h, List.map_append, List.map_singleton, group]
    congr 1
    · apply List.map_congr_left
      intro k hk
      have hhas := mem_keys.mp hk
      have hne : key n ≠ k := fun heq => h (heq ▸ hhas)
      rw [valuesOf_snoc, nameOf_snoc, if_pos hhas, if_neg hne, List.append_nil]
    · have hnone : valuesOf key pairs (key n) = [] := by
        by_contra hne
        exact h (valuesOf_ne_nil.mp hne)
      rw [valuesOf_snoc, nameOf_snoc, if_neg h, if_pos rfl, if_pos rfl, hnone, List.nil_append]

theorem has_without {k' : κ} :
    has key (without key pairs k) k' ↔ has key pairs k' ∧ k' ≠ k := by
  simp only [has, without, List.mem_filter, decide_eq_true_eq]
  constructor
  · rintro ⟨p, ⟨hmem, hne⟩, rfl⟩
    exact ⟨⟨p, hmem, rfl⟩, hne⟩
  · rintro ⟨⟨p, hmem, rfl⟩, hne⟩
    exact ⟨p, ⟨hmem, hne⟩, rfl⟩

theorem valuesOf_without {k' : κ} (hne : k' ≠ k) :
    valuesOf key (without key pairs k) k' = valuesOf key pairs k' := by
  rw [valuesOf, valuesOf, without, List.filter_filter]
  congr 1
  apply List.filter_congr
  intro p _
  by_cases h : key p.1 = k' <;> simp [h, hne]

theorem nameOf_without {k' : κ} (hne : k' ≠ k) :
    nameOf key (without key pairs k) k' = nameOf key pairs k' := by
  rw [nameOf, nameOf, without, List.find?_filter]
  congr 2
  funext p
  by_cases h : key p.1 = k' <;> simp [h, hne]

theorem group_without : group key (without key pairs k) =
    (group key pairs).filter fun e => decide (e.1 ≠ k) := by
  have hkeys : keys key (without key pairs k) =
      (keys key pairs).filter fun k' => decide (k' ≠ k) := by
    rw [keys, keys, ← firsts_filter, without, List.filter_map]
    rfl
  rw [group, hkeys, group, List.filter_map]
  apply List.map_congr_left
  intro k' hk'
  have hne : k' ≠ k := of_decide_eq_true (List.mem_filter.mp hk').2
  rw [valuesOf_without hne, nameOf_without hne]

theorem group_rename {f : κ → ν} (hf : ∀ p ∈ pairs, key (f (key p.1)) = key p.1) :
    group key (rename key f pairs) =
      (group key pairs).map fun e => (e.1, some (f e.1), e.2.2) := by
  have hsame : (rename key f pairs).map (fun p => key p.1) =
      pairs.map fun p => key p.1 := by
    rw [rename, List.map_map]
    exact List.map_congr_left hf
  rw [group, keys, hsame, group, List.map_map]
  apply List.map_congr_left
  intro k hk
  obtain ⟨p, hmem, hkey⟩ := mem_keys.mp hk
  have hnames : nameOf key (rename key f pairs) k = some (f k) := by
    unfold nameOf
    cases hfind : (rename key f pairs).find? (fun p => decide (key p.1 = k)) with
    | none =>
        refine absurd (decide_eq_true ?_) (List.find?_eq_none.mp hfind (f (key p.1), p.2)
          (List.mem_map.mpr ⟨p, hmem, rfl⟩))
        exact (hf p hmem).trans hkey
    | some q =>
        have hsome := List.find?_some hfind
        have hq : key q.1 = k := of_decide_eq_true hsome
        obtain ⟨p', hmem', rfl⟩ := List.mem_map.mp (List.mem_of_find?_eq_some hfind)
        have hp' : key p'.1 = k := (hf p' hmem').symm.trans hq
        simp [hp']
  have hvalues : valuesOf key (rename key f pairs) k = valuesOf key pairs k := by
    rw [valuesOf, rename, List.filter_map, List.map_map, valuesOf]
    have hfilter : pairs.filter ((fun p : ν × β => decide (key p.1 = k)) ∘
        fun p => (f (key p.1), p.2)) = pairs.filter fun p => decide (key p.1 = k) := by
      apply List.filter_congr
      intro q hq
      simp [hf q hq]
    rw [hfilter]
    rfl
  rw [hnames, hvalues]
  rfl

/-- The names and values of a grouped multimap, entry by entry. -/
def flatten (ks : List κ) (name : κ → ν) (values : κ → List β) : List (ν × β) :=
  ks.flatMap fun k => (values k).map fun v => (name k, v)

variable {ks : List κ} {name : κ → ν} {values : κ → List β}

omit [DecidableEq κ] in
theorem has_flatten (hname : ∀ k ∈ ks, key (name k) = k) (hvalues : ∀ k ∈ ks, values k ≠ []) :
    has key (flatten ks name values) k ↔ k ∈ ks := by
  simp only [has, flatten, List.mem_flatMap, List.mem_map]
  constructor
  · rintro ⟨_, ⟨k', hk', v, -, rfl⟩, rfl⟩
    rw [hname k' hk']
    exact hk'
  · intro hk
    obtain ⟨v, hv⟩ := List.exists_mem_of_ne_nil _ (hvalues k hk)
    exact ⟨(name k, v), ⟨k, hk, v, hv, rfl⟩, hname k hk⟩

theorem firsts_replicate (n : Nat) (k : κ) (rest : List κ) :
    firsts (List.replicate (n + 1) k ++ rest) =
      k :: (firsts rest).filter fun k' => decide (k' ≠ k) := by
  induction n with
  | zero => rfl
  | succ n ih =>
      rw [List.replicate_succ, List.cons_append, firsts, ih]
      simp

theorem keys_flatten (hnodup : ks.Nodup) (hname : ∀ k ∈ ks, key (name k) = k)
    (hvalues : ∀ k ∈ ks, values k ≠ []) : keys key (flatten ks name values) = ks := by
  induction ks with
  | nil => rfl
  | cons k ks ih =>
      obtain ⟨hnot, hnodup⟩ := List.nodup_cons.mp hnodup
      have hrest := ih hnodup (fun k hk => hname k (List.mem_cons_of_mem _ hk))
        fun k hk => hvalues k (List.mem_cons_of_mem _ hk)
      obtain ⟨v, vs, hv⟩ := List.exists_cons_of_ne_nil (hvalues k List.mem_cons_self)
      have hfirst : ((values k).map fun v => (name k, v)).map (fun p => key p.1) =
          List.replicate (vs.length + 1) k := by
        rw [hv, List.map_map, List.eq_replicate_iff]
        refine ⟨by simp, fun k' hk' => ?_⟩
        obtain ⟨_, -, rfl⟩ := List.mem_map.mp hk'
        exact hname k List.mem_cons_self
      unfold keys at hrest ⊢
      rw [flatten, List.flatMap_cons, List.map_append, hfirst, firsts_replicate]
      change k :: (firsts ((flatten ks name values).map fun p => key p.1)).filter _ = _
      rw [hrest, List.filter_eq_self.mpr]
      intro k' hk'
      exact decide_eq_true fun heq => hnot (heq ▸ hk')

theorem valuesOf_append (xs ys : List (ν × β)) (k : κ) :
    valuesOf key (xs ++ ys) k = valuesOf key xs k ++ valuesOf key ys k := by
  rw [valuesOf, List.filter_append, List.map_append, valuesOf, valuesOf]

theorem valuesOf_flatten (hnodup : ks.Nodup) (hname : ∀ k ∈ ks, key (name k) = k) (k : κ) :
    valuesOf key (flatten ks name values) k = if k ∈ ks then values k else [] := by
  induction ks with
  | nil => rfl
  | cons k' ks ih =>
      obtain ⟨hnot, hnodup⟩ := List.nodup_cons.mp hnodup
      have hrest := ih hnodup fun k hk => hname k (List.mem_cons_of_mem _ hk)
      have hfirst : valuesOf key ((values k').map fun v => (name k', v)) k =
          if k' = k then values k' else [] := by
        have hkey := hname k' List.mem_cons_self
        by_cases heq : k' = k
        · subst heq
          simp [valuesOf, List.filter_map, Function.comp_def, hkey]
        · simp [valuesOf, List.filter_map, Function.comp_def, hkey, heq]
      rw [flatten, List.flatMap_cons, valuesOf_append, hfirst]
      change _ ++ valuesOf key (flatten ks name values) k = _
      rw [hrest]
      by_cases heq : k' = k
      · rw [if_pos heq, if_neg (heq ▸ hnot), if_pos (heq ▸ List.mem_cons_self ..), heq,
          List.append_nil]
      · rw [if_neg heq, List.nil_append]
        simp [Ne.symm heq]

theorem nameOf_append (xs ys : List (ν × β)) (k : κ) :
    nameOf key (xs ++ ys) k = (nameOf key xs k).or (nameOf key ys k) := by
  rw [nameOf, List.find?_append, nameOf, nameOf]
  cases xs.find? (fun p => decide (key p.1 = k)) <;> rfl

theorem nameOf_none : nameOf key pairs k = none ↔ ¬has key pairs k := by
  simp [nameOf, has]

theorem key_nameOf {n : ν} (h : nameOf key pairs k = some n) : key n = k := by
  obtain ⟨p, hfind, rfl⟩ := Option.map_eq_some_iff.mp h
  have hsome := List.find?_some hfind
  exact of_decide_eq_true hsome

theorem nameOf_flatten (hname : ∀ k ∈ ks, key (name k) = k) (hvalues : ∀ k ∈ ks, values k ≠ [])
    (k : κ) : nameOf key (flatten ks name values) k = if k ∈ ks then some (name k) else none := by
  by_cases hk : k ∈ ks
  · rw [if_pos hk]
    cases hfind : nameOf key (flatten ks name values) k with
    | none => exact absurd ((has_flatten hname hvalues).mpr hk) (nameOf_none.mp hfind)
    | some n =>
        have hkey := key_nameOf hfind
        obtain ⟨p, hp, rfl⟩ := Option.map_eq_some_iff.mp hfind
        have hmem := List.mem_of_find?_eq_some hp
        simp only [flatten, List.mem_flatMap, List.mem_map] at hmem
        obtain ⟨k', hk', v, -, rfl⟩ := hmem
        rw [← hkey, hname k' hk']
  · rw [if_neg hk]
    exact nameOf_none.mpr fun h => hk ((has_flatten hname hvalues).mp h)

/-- What a multimap looks like grouped is decided by its keys, its first names and its values. -/
theorem group_append_congr {xs ys zs : List (ν × β)} (hkeys : keys key ys = keys key zs)
    (hnames : ∀ k, nameOf key ys k = nameOf key zs k)
    (hvalues : ∀ k, valuesOf key ys k = valuesOf key zs k) :
    group key (xs ++ ys) = group key (xs ++ zs) := by
  have happend : ∀ us vs : List κ,
      firsts (us ++ vs) = firsts us ++ (firsts vs).filter fun k => decide (k ∉ us) := by
    intro us vs
    induction us with
    | nil => simp [firsts]
    | cons u us ih =>
        rw [List.cons_append, firsts, ih, List.filter_append, firsts, List.filter_filter]
        congr 2
        apply List.filter_congr
        intro k _
        simp [List.mem_cons, not_or]
  have hboth : keys key (xs ++ ys) = keys key (xs ++ zs) := by
    unfold keys at hkeys ⊢
    rw [List.map_append, List.map_append, happend, happend, hkeys]
  rw [group, group, hboth]
  apply List.map_congr_left
  intro k _
  rw [nameOf_append, nameOf_append, valuesOf_append, valuesOf_append, hnames, hvalues]

/-- Adding what a grouped multimap lists is adding the multimap. -/
theorem group_append_flatten {xs ys : List (ν × β)} {name : κ → ν}
    (hname : ∀ k, has key ys k → nameOf key ys k = some (name k)) :
    group key (xs ++ flatten (keys key ys) name (valuesOf key ys)) = group key (xs ++ ys) := by
  have hkey : ∀ k ∈ keys key ys, key (name k) = k := fun k hk =>
    key_nameOf (hname k (mem_keys.mp hk))
  have hvalues : ∀ k ∈ keys key ys, valuesOf key ys k ≠ [] := fun k hk =>
    valuesOf_ne_nil.mpr (mem_keys.mp hk)
  have hnodup : (keys key ys).Nodup := nodup_firsts _
  apply group_append_congr
  · exact keys_flatten hnodup hkey hvalues
  · intro k
    rw [nameOf_flatten hkey hvalues]
    by_cases hk : has key ys k
    · rw [if_pos (mem_keys.mpr hk), hname k hk]
    · rw [if_neg (fun hmem => hk (mem_keys.mp hmem)), nameOf_none.mpr hk]
  · intro k
    rw [valuesOf_flatten hnodup hkey]
    by_cases hk : has key ys k
    · rw [if_pos (mem_keys.mpr hk)]
    · rw [if_neg (fun hmem => hk (mem_keys.mp hmem))]
      by_contra hne
      exact hk (valuesOf_ne_nil.mp (Ne.symm hne))

end Grouped
