import Zuri.Vm.DictRun

/-!
Dictionaries as the heap stores them against maps in the order of insertion: a step that
meets the condition does the same to both, and every state of a run is as exact as it should
be. A copy has fresh containers for containers, so the keys of a copy stay apart; a
collection moves keys without changing which of them are the same.
-/

namespace Zuri.Vm

open OrderedMap

variable {fx : HashInput → Nat} {h h' k : Heap DictStorage} {s : DictStorage} {a d : Nat}
  {v v' : Value} {t : Texts}

/-- The same heap with maps for dictionaries. -/
abbrev Heap.maps (h : Heap DictStorage) : Heap (List (Value × Value)) :=
  h.view DictStorage.entries

/-- Objects are added past the ones there are. -/
structure Grown (h h' : Heap DictStorage) : Prop where
  next : h.next ≤ h'.next
  memory : ∀ a, a < h.next → h'.memory a = h.memory a

namespace Grown

theorem refl (h : Heap DictStorage) : Grown h h := ⟨Nat.le_refl _, fun _ _ => rfl⟩

theorem trans (hg : Grown h h') (hk : Grown h' k) : Grown h k :=
  ⟨Nat.le_trans hg.next hk.next, fun a ha => by
    rw [hk.memory a (Nat.lt_of_lt_of_le ha hg.next), hg.memory a ha]⟩

theorem alloc (h : Heap DictStorage) (o : Obj DictStorage) : Grown h (h.alloc o) := by
  refine ⟨Nat.le_succ _, fun a ha => ?_⟩
  simp only [Heap.alloc, Heap.put]
  rw [if_neg (by omega)]

theorem texts (hg : Grown h h') (ha : a < h.next) : h'.texts a = h.texts a := by
  rw [Heap.texts, hg.memory a ha, Heap.texts]

theorem live (hg : Grown h h') (hv : h.Live v) : h'.Live v :=
  fun a ha => Nat.lt_of_lt_of_le (hv a ha) hg.next

theorem keysKept (hg : Grown h h') {entries : List (Value × Value)} (hk : KeysKept h entries) :
    KeysKept h' entries :=
  fun e he => ⟨(hk e he).1, hg.live (hk e he).2⟩

end Grown

/-- An object allocated from one heap to the next, and no string. -/
def Fresh (h h' : Heap DictStorage) (v : Value) : Prop :=
  ∃ a, v = .obj a ∧ h.next ≤ a ∧ a < h'.next ∧ h'.texts a = none

theorem Fresh.mono {h₀ h₁ : Heap DictStorage} (hf : Fresh h h' v) (hbefore : h₀.next ≤ h.next)
    (hafter : Grown h' h₁) : Fresh h₀ h₁ v := by
  obtain ⟨a, hv, hlow, hhigh, hnone⟩ := hf
  exact ⟨a, hv, Nat.le_trans hbefore hlow, Nat.lt_of_lt_of_le hhigh hafter.next,
    by rw [hafter.texts hhigh, hnone]⟩

theorem sameKey_apart (hnone : t a = none) (hne : v ≠ .obj a) : sameKey t (.obj a) v = false := by
  cases v with
  | obj b =>
      have hab : a ≠ b := fun hab => hne (by rw [hab])
      simp [sameKey, hnone, hab]
  | _ => rfl

theorem Fresh.apart (hf : Fresh h h' v) (hlive : h.Live v') :
    sameKey h'.texts v v' = false := by
  obtain ⟨a, rfl, hlow, -, hnone⟩ := hf
  refine sameKey_apart hnone fun hv => ?_
  have := hlive a hv
  omega

theorem Fresh.steady (hf : Fresh h h' v) : Steady v := by
  obtain ⟨a, rfl, -⟩ := hf
  exact ⟨nofun, nofun⟩

theorem Fresh.live (hf : Fresh h h' v) : h'.Live v := by
  obtain ⟨a, rfl, -, hhigh, -⟩ := hf
  rintro b ⟨⟩
  exact hhigh

section Cloning

variable {α : Type} {c : Heap DictStorage → α → Option (Heap DictStorage × α)}
  {m : Heap (List (Value × Value)) → α → Option (Heap (List (Value × Value)) × α)}

/-- Two ways to copy that do the same, one over stored dictionaries and one over maps. -/
def Faithful (fx : HashInput → Nat) (c : Heap DictStorage → α → Option (Heap DictStorage × α))
    (m : Heap (List (Value × Value)) → α → Option (Heap (List (Value × Value)) × α)) : Prop :=
  ∀ h x h' x', Kept fx h → c h x = some (h', x') →
    Kept fx h' ∧ Grown h h' ∧ m h.maps x = some (h'.maps, x')

theorem cloneEach_faithful (hc : Faithful fx c m) :
    Faithful fx (cloneEach c) (cloneEach m) := by
  intro h xs
  induction xs generalizing h with
  | nil =>
      rintro h' xs' hk ⟨⟩
      exact ⟨hk, .refl h, rfl⟩
  | cons x xs ih =>
      intro h' xs' hk heach
      obtain ⟨⟨h₁, y⟩, hx, hrest⟩ := Option.bind_eq_some_iff.mp heach
      obtain ⟨⟨h₂, ys⟩, hxs, hsome⟩ := Option.map_eq_some_iff.mp hrest
      cases hsome
      obtain ⟨hk₁, hg₁, hm₁⟩ := hc h x h₁ y hk hx
      obtain ⟨hk₂, hg₂, hm₂⟩ := ih h₁ h₂ ys hk₁ hxs
      refine ⟨hk₂, hg₁.trans hg₂, ?_⟩
      rw [cloneEach, hm₁, Option.bind_some, hm₂]
      rfl

variable {c : Heap DictStorage → Value → Option (Heap DictStorage × Value)}
  {m : Heap (List (Value × Value)) → Value → Option (Heap (List (Value × Value)) × Value)}

theorem clonePair_faithful (hc : Faithful fx c m) : Faithful fx (clonePair c) (clonePair m) := by
  intro h e h' e' hk hpair
  obtain ⟨⟨h₁, y⟩, hkey, hrest⟩ := Option.bind_eq_some_iff.mp hpair
  obtain ⟨⟨h₂, z⟩, hvalue, hsome⟩ := Option.map_eq_some_iff.mp hrest
  cases hsome
  obtain ⟨hk₁, hg₁, hm₁⟩ := hc h e.1 h₁ y hk hkey
  obtain ⟨hk₂, hg₂, hm₂⟩ := hc h₁ e.2 h₂ z hk₁ hvalue
  refine ⟨hk₂, hg₁.trans hg₂, ?_⟩
  rw [clonePair, hm₁, Option.bind_some, hm₂]
  rfl

/-- A copy is the value itself or a fresh container. -/
def Renews (fx : HashInput → Nat) (c : Heap DictStorage → Value → Option (Heap DictStorage × Value)) :
    Prop :=
  ∀ h v h' v', Kept fx h → c h v = some (h', v') → v' = v ∨ Fresh h h' v'

/-- The keys of copied entries are the old ones or fresh, and still apart. -/
theorem clonePairs_keys (hc : Faithful fx c m) (hr : Renews fx c) {es es' : List (Value × Value)}
    (hk : Kept fx h) (hes : KeysKept h es) (hdistinct : Distinct (sameKey h.texts) es)
    (hclone : cloneEach (clonePair c) h es = some (h', es')) :
    Distinct (sameKey h'.texts) es' ∧
      ∀ e' ∈ es', (∃ e ∈ es, e'.1 = e.1) ∨ Fresh h h' e'.1 := by
  induction es generalizing h es' with
  | nil =>
      cases hclone
      exact ⟨Distinct.nil, nofun⟩
  | cons e es ih =>
      obtain ⟨⟨h₂, y⟩, hpair, hrest⟩ := Option.bind_eq_some_iff.mp hclone
      obtain ⟨⟨h₃, ys⟩, hmore, hsome⟩ := Option.map_eq_some_iff.mp hrest
      cases hsome
      obtain ⟨⟨h₁, key⟩, hkey, hlast⟩ := Option.bind_eq_some_iff.mp hpair
      obtain ⟨⟨h₄, value⟩, hvalue, hsome⟩ := Option.map_eq_some_iff.mp hlast
      cases hsome
      obtain ⟨hk₁, hg₁, -⟩ := hc h e.1 h₁ key hk hkey
      obtain ⟨hk₂, hg₂, -⟩ := hc h₁ e.2 h₄ value hk₁ hvalue
      obtain ⟨-, hg₃, -⟩ := cloneEach_faithful (clonePair_faithful hc) h₄ es h₃ ys hk₂ hmore
      have hg := hg₁.trans hg₂
      have hall := hg.trans hg₃
      have hrestKept : KeysKept h es := fun x hx => hes x (List.mem_cons_of_mem e hx)
      have hlive := (hes e List.mem_cons_self).2
      obtain ⟨hdiffer, hapart⟩ := List.pairwise_cons.mp hdistinct
      obtain ⟨hys, hold⟩ := ih hk₂ (hg.keysKept hrestKept)
        (DictStorage.distinct_retext hapart
          fun x hx b hb => hg.texts ((hrestKept x hx).2 b hb)) hmore
      have hold' : ∀ x ∈ ys, (∃ e₀ ∈ es, x.1 = e₀.1) ∨ Fresh h h₃ x.1 := fun x hx =>
        (hold x hx).imp_right fun hf => hf.mono hg.next (.refl h₃)
      have hkeyNew : key = e.1 ∨ Fresh h h₁ key := hr h e.1 h₁ key hk hkey
      refine ⟨List.pairwise_cons.mpr ⟨fun x hx => ?_, hys⟩, fun x hx => ?_⟩
      · rcases hkeyNew with rfl | hfresh
        · rcases hold' x hx with ⟨e₀, he₀, hxe⟩ | hxfresh
          · simp only [hxe]
            rw [DictStorage.sameKey_congr (fun b hb => hall.texts (hlive b hb))
              fun b hb => hall.texts ((hrestKept e₀ he₀).2 b hb)]
            exact hdiffer e₀ he₀
          · rw [sameKey_symm]
            exact hxfresh.apart hlive
        · have hfinal : Fresh h h₃ key := hfresh.mono (Nat.le_refl _) (hg₂.trans hg₃)
          rcases hold x hx with ⟨e₀, he₀, hxe⟩ | hxfresh
          · simp only [hxe]
            exact hfinal.apart (hrestKept e₀ he₀).2
          · rw [sameKey_symm]
            exact hxfresh.apart (hg₂.live hfresh.live)
      · rcases List.mem_cons.mp hx with rfl | hx
        · rcases hkeyNew with rfl | hfresh
          · exact .inl ⟨e, List.mem_cons_self, rfl⟩
          · exact .inr (hfresh.mono (Nat.le_refl _) (hg₂.trans hg₃))
        · rcases hold' x hx with ⟨e₀, he₀, hxe⟩ | hfresh
          · exact .inl ⟨e₀, List.mem_cons_of_mem e he₀, hxe⟩
          · exact .inr hfresh

/-- A dictionary of copied entries is exact and has all of them. -/
theorem cloneEntries_kept (hc : Faithful fx c m) (hr : Renews fx c) {es es' : List (Value × Value)}
    (hk : Kept fx h) (hes : KeysKept h es) (hdistinct : Distinct (sameKey h.texts) es)
    (hclone : cloneEach (clonePair c) h es = some (h', es')) :
    Kept fx (h'.alloc (.dict (DictStorage.fromPairs fx h'.texts es'))) ∧
      (h'.alloc (.dict (DictStorage.fromPairs fx h'.texts es'))).maps =
        h'.maps.alloc (.dict es') := by
  obtain ⟨hk', hg, -⟩ := cloneEach_faithful (clonePair_faithful hc) h es h' es' hk hclone
  obtain ⟨hapart, hkeys⟩ := clonePairs_keys hc hr hk hes hdistinct hclone
  have hentries := DictStorage.fromPairs_distinct fx hapart
  refine ⟨hk'.alloc (DictStorage.fromPairs_spec fx h'.texts es').1 ?_, ?_⟩
  · rw [hentries]
    intro x hx
    rcases hkeys x hx with ⟨e, he, hxe⟩ | hfresh
    · rw [hxe]
      exact hg.keysKept hes e he
    · exact ⟨hfresh.steady, hfresh.live⟩
  · rw [Heap.maps, Heap.view_alloc, Obj.map, hentries]

section Equations

variable {δ : Type} {st : Storage δ} {g : Heap δ} {fuel : Nat}

theorem deepClone_list {items : List Value} (ha : g.memory a = .list items) :
    deepClone st (fuel + 1) g (.obj a) =
      (cloneEach (deepClone st fuel) g items).map fun r =>
        (r.1.alloc (.list r.2), .obj r.1.next) := by
  rw [deepClone, ha]

theorem deepClone_dict {s : δ} (ha : g.memory a = .dict s) :
    deepClone st (fuel + 1) g (.obj a) =
      (cloneEach (clonePair (deepClone st fuel)) g (st.entries s)).map fun r =>
        (r.1.alloc (.dict (st.fromEntries r.1.texts r.2)), .obj r.1.next) := by
  rw [deepClone, ha]

theorem deepClone_self (hlist : ∀ items, g.memory a ≠ .list items)
    (hdict : ∀ s, g.memory a ≠ .dict s) :
    deepClone st (fuel + 1) g (.obj a) = some (g, .obj a) := by
  rw [deepClone]
  cases ha : g.memory a with
  | list items => exact absurd ha (hlist items)
  | dict s => exact absurd ha (hdict s)
  | _ => rfl

end Equations

theorem alloc_fresh {o : Obj DictStorage} (hg : Grown h k) (ho : o.text = none) :
    Fresh h (k.alloc o) (.obj k.next) :=
  ⟨k.next, rfl, hg.next, Nat.lt_succ_self _, by simp [Heap.texts, Heap.alloc, Heap.put, ho]⟩

theorem maps_memory {o : Obj DictStorage} (ha : h.memory a = o) :
    h.maps.memory a = o.map DictStorage.entries := by
  rw [← ha]
  rfl

theorem deepClone_faithful (fx : HashInput → Nat) (fuel : Nat) :
    Faithful fx (deepClone (stored fx) fuel) (deepClone ordered fuel) ∧
      Renews fx (deepClone (stored fx) fuel) := by
  induction fuel with
  | zero => exact ⟨nofun, nofun⟩
  | succ fuel ih =>
      obtain ⟨hc, hr⟩ := ih
      suffices hboth : ∀ h v h' v', Kept fx h → deepClone (stored fx) (fuel + 1) h v = some (h', v') →
          (Kept fx h' ∧ Grown h h' ∧ deepClone ordered (fuel + 1) h.maps v = some (h'.maps, v')) ∧
            (v' = v ∨ Fresh h h' v') from
        ⟨fun h v h' v' hk hd => (hboth h v h' v' hk hd).1,
          fun h v h' v' hk hd => (hboth h v h' v' hk hd).2⟩
      intro h v h' v' hk hclone
      cases v with
      | obj a =>
          cases ha : h.memory a with
          | list items =>
              rw [deepClone_list ha] at hclone
              obtain ⟨⟨h₁, xs⟩, heach, hsome⟩ := Option.map_eq_some_iff.mp hclone
              cases hsome
              obtain ⟨hk₁, hg₁, hm₁⟩ := cloneEach_faithful hc h items h₁ xs hk heach
              refine ⟨⟨hk₁.allocPlain nofun, hg₁.trans (.alloc h₁ _), ?_⟩,
                .inr (alloc_fresh hg₁ rfl)⟩
              rw [deepClone_list (maps_memory ha), hm₁, Option.map_some, Heap.maps, Heap.maps,
                Heap.view_alloc]
              rfl
          | dict s =>
              rw [deepClone_dict ha] at hclone
              obtain ⟨⟨h₁, xs⟩, heach, hsome⟩ := Option.map_eq_some_iff.mp hclone
              cases hsome
              obtain ⟨-, hg₁, hm₁⟩ :=
                cloneEach_faithful (clonePair_faithful hc) h s.entries h₁ xs hk heach
              obtain ⟨hkept, hmaps⟩ := cloneEntries_kept hc hr hk (hk.keys a s ha)
                (hk.exact a s ha).distinct heach
              refine ⟨⟨hkept, hg₁.trans (.alloc h₁ _), ?_⟩, .inr (alloc_fresh hg₁ rfl)⟩
              rw [deepClone_dict (maps_memory ha)]
              simp only [stored] at hmaps ⊢
              rw [hmaps]
              simp only [ordered, id] at hm₁ ⊢
              rw [hm₁]
              rfl
          | _ =>
              rw [deepClone_self (by rw [ha]; exact nofun) (by rw [ha]; exact nofun)] at hclone
              cases hclone
              have hmem := maps_memory ha
              refine ⟨⟨hk, .refl h, ?_⟩, .inl rfl⟩
              exact deepClone_self (by rw [hmem]; exact nofun) (by rw [hmem]; exact nofun)
      | _ =>
          cases hclone
          exact ⟨⟨hk, .refl h, rfl⟩, .inl rfl⟩

end Cloning

section Moving

variable (ρ : Equiv.Perm Nat)

theorem sameKey_moved (a b : Value) :
    sameKey (fun x => t (ρ.symm x)) (a.moved ρ) (b.moved ρ) = sameKey t a b := by
  cases a with
  | obj x =>
      cases b with
      | obj y =>
          have hinj : (ρ x == ρ y) = (x == y) := Bool.eq_iff_iff.mpr (by simp)
          simp only [sameKey, Value.moved, ρ.symm_apply_apply, hinj]
      | _ => rfl
  | _ => cases b <;> rfl

theorem Steady.moved (hs : Steady v) : Steady (v.moved ρ) := by
  cases v with
  | obj x => exact ⟨nofun, nofun⟩
  | _ => exact hs

def movedEntries (entries : List (Value × Value)) : List (Value × Value) :=
  entries.map fun e => (e.1.moved ρ, e.2.moved ρ)

theorem distinct_moved {entries : List (Value × Value)} (hd : Distinct (sameKey t) entries) :
    Distinct (sameKey fun x => t (ρ.symm x)) (movedEntries ρ entries) := by
  unfold Distinct movedEntries
  rw [List.pairwise_map]
  simp only [sameKey_moved]
  exact hd

theorem moved_entries : (s.moved fx t ρ).entries = movedEntries ρ s.entries := by
  unfold DictStorage.moved
  simp only
  split
  · exact DictStorage.reindex_entries fx t _
  · rfl

theorem moved_exact (hs : s.Exact fx t) :
    (s.moved fx (fun x => t (ρ.symm x)) ρ).Exact fx fun x => t (ρ.symm x) := by
  unfold DictStorage.moved
  simp only
  split
  · exact DictStorage.reindex_exact (distinct_moved ρ hs.distinct)
  · rename_i hstay
    -- No key has moved, so the index is still that of the same keys.
    have hkeys : ∀ e ∈ s.entries, e.1.moved ρ = e.1 := by simpa using hstay
    have hmap : (movedEntries ρ s.entries).map Prod.fst = s.entries.map Prod.fst := by
      rw [movedEntries, List.map_map]
      exact List.map_congr_left hkeys
    refine ⟨distinct_moved ρ hs.distinct, fun index hindex => ?_⟩
    rw [hs.index index hindex]
    refine Eq.trans ?_ (DictStorage.slots_congr hmap).symm
    refine (DictStorage.slots_retext fun e he x hx => ?_).symm
    have hx' := hkeys e he
    rw [hx] at hx'
    have hρ : ρ x = x := by simpa [Value.moved] using hx'
    rw [ρ.symm_apply_eq.mpr hρ.symm]

theorem moved_text (o : Obj DictStorage) (t : Texts) :
    (o.moved (stored fx) t ρ).text = o.text := by
  cases o <;> rfl

theorem moved_map (o : Obj DictStorage) (t : Texts) :
    (o.moved (stored fx) t ρ).map DictStorage.entries =
      (o.map DictStorage.entries).moved ordered t ρ := by
  cases o with
  | dict s => exact congrArg Obj.dict (moved_entries ρ)
  | _ => rfl

theorem step_moved {next : Nat} (hk : Kept fx h) (hallowed : ∀ a, h.Named a → ρ a < next)
    (hstep : h.step (stored fx) (.moved ρ next) = some h') :
    Kept fx h' ∧ h.maps.step ordered (.moved ρ next) = some h'.maps := by
  cases hstep
  have htexts : (Heap.texts ⟨fun a => (h.memory (ρ.symm a)).moved (stored fx)
      (fun a => h.texts (ρ.symm a)) ρ, next⟩) = fun a => h.texts (ρ.symm a) := by
    funext a
    exact moved_text ρ _ _
  constructor
  · constructor
    · intro d s hd
      rw [htexts]
      simp only at hd
      cases hold : h.memory (ρ.symm d) with
      | dict o =>
          rw [hold] at hd
          cases hd
          exact moved_exact ρ (hk.exact _ o hold)
      | _ => rw [hold] at hd; cases hd
    · intro d s hd e he
      simp only at hd
      cases hold : h.memory (ρ.symm d) with
      | dict o =>
          rw [hold] at hd
          cases hd
          rw [stored, moved_entries] at he
          obtain ⟨e₀, he₀, rfl⟩ := List.mem_map.mp he
          refine ⟨(hk.keys _ o hold e₀ he₀).1.moved ρ, fun x hx => ?_⟩
          cases hkey : e₀.1 with
          | obj y =>
              rw [hkey] at hx
              cases hx
              exact hallowed y ⟨_, o, hold, e₀, he₀, hkey⟩
          | _ => rw [hkey] at hx; cases hx
      | _ => rw [hold] at hd; cases hd
  · simp only [Heap.step, Heap.maps, Heap.view_texts, Option.some.injEq]
    simp only [Heap.view, Heap.mk.injEq, and_true]
    funext a
    exact (moved_map ρ _ _).symm

end Moving

theorem remaining_eq {m : Nat → Obj DictStorage} {fuel : Nat} {key : Value}
    {es : List (Value × Value)}
    (hes : ∀ e ∈ es, equals fx m fuel e.1 key = some (sameKey t e.1 key)) :
    remaining fx m fuel key es = some (OrderedMap.remove (sameKey t) es key) := by
  induction es with
  | nil => rfl
  | cons e es ih =>
      rw [remaining, hes e List.mem_cons_self, Option.bind_some,
        ih fun x hx => hes x (List.mem_cons_of_mem e hx), Option.map_some]
      unfold OrderedMap.remove
      rw [List.filter_cons]
      cases sameKey t e.1 key <;> rfl

theorem remove_spec {fuel : Nat} {key : Value} {s' : DictStorage} (hs : s.Exact fx h.texts)
    (hmeets : (s.get fx h.texts key).isSome = true →
      ∀ e ∈ s.entries, equals fx h.memory fuel e.1 key = some (sameKey h.texts e.1 key))
    (hremove : s.remove fx h.memory fuel key = some s') :
    s'.Exact fx h.texts ∧ s'.entries = OrderedMap.remove (sameKey h.texts) s.entries key := by
  unfold DictStorage.remove at hremove
  simp only at hremove
  split at hremove
  · rename_i hfound
    rw [remaining_eq (hmeets hfound)] at hremove
    cases hremove
    have hdistinct : Distinct (sameKey h.texts) (OrderedMap.remove (sameKey h.texts) s.entries key) :=
      hs.distinct.filter _
    exact ⟨(DictStorage.fromPairs_spec fx h.texts _).1, DictStorage.fromPairs_distinct fx hdistinct⟩
  · rename_i habsent
    cases hremove
    refine ⟨hs, (remove_absent ?_).symm⟩
    rw [position_none]
    intro e he
    have hget : OrderedMap.get (sameKey h.texts) s.entries key = none := by
      rw [← hs.get]
      exact Option.not_isSome_iff_eq_none.mp habsent
    have hfind := Option.map_eq_none_iff.mp hget
    simpa using List.find?_eq_none.mp hfind e he

theorem Obj.map_plain (o : Obj Empty) :
    (o.map Empty.elim : Obj DictStorage).map DictStorage.entries = o.map Empty.elim := by
  cases o with
  | dict s => exact s.elim
  | _ => rfl

theorem kept_put {s' : DictStorage} (hk : Kept fx h) (hd : h.dict d = some s)
    (hs' : s'.Exact fx h.texts) (hkeys : KeysKept h s'.entries) :
    Kept fx (h.put d (.dict s')) ∧
      (h.put d (.dict s')).maps = h.maps.put d (.dict s'.entries) :=
  ⟨hk.put hd hs' hkeys, Heap.view_put⟩

/-- A step that meets the condition does the same to dictionaries and to maps. -/
theorem step_kept {op : Op} (hk : Kept fx h) (hallowed : h.Allowed op) (hmeets : h.Meets fx op)
    (hstep : h.step (stored fx) op = some h') :
    Kept fx h' ∧ h.maps.step ordered op = some h'.maps := by
  cases op with
  | literal pairs =>
      cases hstep
      obtain ⟨hexact, hentries⟩ := DictStorage.fromPairs_spec fx h.texts pairs
      refine ⟨hk.alloc hexact ?_, ?_⟩
      · rw [stored, hentries]
        exact forall_putAll (P := fun v => Steady v ∧ h.Live v) nofun
          fun p hp => ⟨hmeets p hp, hallowed p hp⟩
      · rw [Heap.maps, Heap.maps, Heap.view_alloc, Heap.step, Heap.view_texts, Obj.map, stored,
          hentries]
        rfl
  | set d key value =>
      obtain ⟨s, hd, rfl⟩ := Option.map_eq_some_iff.mp hstep
      have hmem := Heap.dict_some.mp hd
      have hentries := DictStorage.set_entries (hk.exact d s hmem) key value
      obtain ⟨hkept, hmaps⟩ := kept_put hk hd
        (DictStorage.set_exact (hk.exact d s hmem) key value) (by
          rw [hentries]
          exact forall_put (P := fun v => Steady v ∧ h.Live v) (hk.keys d s hmem)
            ⟨hmeets, hallowed⟩)
      refine ⟨hkept, ?_⟩
      rw [Heap.step, Heap.view_dict, hd, Heap.view_texts]
      simp only [stored]
      rw [hmaps, hentries]
      rfl
  | remove d key fuel =>
      obtain ⟨s, hd, hrest⟩ := Option.bind_eq_some_iff.mp hstep
      obtain ⟨s', hs', rfl⟩ := Option.map_eq_some_iff.mp hrest
      have hmem := Heap.dict_some.mp hd
      obtain ⟨hexact, hentries⟩ := remove_spec (hk.exact d s hmem) (hmeets s hd) hs'
      obtain ⟨hkept, hmaps⟩ := kept_put hk hd hexact (by
        rw [hentries]
        exact fun e he => hk.keys d s hmem e (List.mem_filter.mp he).1)
      refine ⟨hkept, ?_⟩
      have htexts : (fun a => (h.maps.memory a).text) = h.texts := Heap.view_texts
      rw [Heap.step, Heap.view_dict, hd, hmaps, hentries]
      simp only [ordered, htexts]
      rfl
  | extend d other =>
      obtain ⟨s, hd, hrest⟩ := Option.bind_eq_some_iff.mp hstep
      obtain ⟨o, ho, rfl⟩ := Option.map_eq_some_iff.mp hrest
      have hmem := Heap.dict_some.mp hd
      have homem := Heap.dict_some.mp ho
      obtain ⟨hexact, hentries⟩ := DictStorage.setAll (hk.exact d s hmem) o.entries
      obtain ⟨hkept, hmaps⟩ := kept_put hk hd hexact (by
        rw [hentries]
        exact forall_putAll (P := fun v => Steady v ∧ h.Live v) (hk.keys d s hmem)
          (hk.keys other o homem))
      refine ⟨hkept, ?_⟩
      rw [Heap.step, Heap.view_dict, Heap.view_dict, hd, ho, Heap.view_texts]
      simp only [stored]
      rw [hmaps, hentries]
      rfl
  | compact d =>
      obtain ⟨s, hd, rfl⟩ := Option.map_eq_some_iff.mp hstep
      have hmem := Heap.dict_some.mp hd
      have hdistinct := (hk.exact d s hmem).distinct.filter fun e => decide (e.2 ≠ .nil)
      have hentries := DictStorage.fromPairs_distinct fx hdistinct
      refine ⟨hk.alloc (DictStorage.fromPairs_spec fx h.texts _).1 ?_, ?_⟩
      · simp only [stored]
        rw [hentries]
        exact fun e he => hk.keys d s hmem e (List.mem_filter.mp he).1
      · rw [Heap.step, Heap.view_dict, hd]
        simp only [stored]
        rw [Heap.maps, Heap.maps, Heap.view_alloc, Obj.map, hentries]
        rfl
  | clone d fuel =>
      obtain ⟨s, hd, hrest⟩ := Option.bind_eq_some_iff.mp hstep
      obtain ⟨⟨h₁, xs⟩, heach, rfl⟩ := Option.map_eq_some_iff.mp hrest
      have hmem := Heap.dict_some.mp hd
      obtain ⟨hc, hr⟩ := deepClone_faithful fx fuel
      obtain ⟨-, -, hm⟩ :=
        cloneEach_faithful (clonePair_faithful hc) h s.entries h₁ xs hk heach
      obtain ⟨hkept, hmaps⟩ := cloneEntries_kept hc hr hk (hk.keys d s hmem)
        (hk.exact d s hmem).distinct heach
      refine ⟨hkept, ?_⟩
      rw [Heap.step, Heap.view_dict, hd]
      simp only [stored] at hmaps ⊢
      rw [hmaps]
      simp only [ordered, id, Option.map_some, Option.bind_some] at hm ⊢
      rw [hm]
      rfl
  | clear d =>
      obtain ⟨s, hd, rfl⟩ := Option.map_eq_some_iff.mp hstep
      obtain ⟨hkept, hmaps⟩ := kept_put hk hd DictStorage.new_exact nofun
      refine ⟨hkept, ?_⟩
      rw [Heap.step, Heap.view_dict, hd]
      exact congrArg some hmaps.symm
  | alloc o =>
      cases hstep
      refine ⟨hk.allocPlain fun s => Kept.map_ne_dict, ?_⟩
      rw [Heap.step, Heap.maps, Heap.maps, Heap.view_alloc, Obj.map_plain]
  | store a o =>
      cases hstep
      refine ⟨hk.store hallowed, ?_⟩
      rw [Heap.step, Heap.maps, Heap.maps, Heap.view_put, Obj.map_plain]
  | moved ρ next => exact step_moved ρ hk hallowed hstep

theorem Heap.run_snoc {δ : Type} (st : Storage δ) (g : Heap δ) (log : List Op) (op : Op) :
    g.run st (log ++ [op]) = (g.run st log).bind fun k => k.step st op := by
  induction log generalizing g with
  | nil =>
      simp only [List.nil_append, Heap.run, Option.bind_some]
      cases g.step st op <;> rfl
  | cons o log ih =>
      rw [List.cons_append, Heap.run, Heap.run]
      cases g.step st o with
      | none => rfl
      | some k => exact ih k

theorem reaches_kept {log : List Op} (hreach : Reaches fx log h) :
    Kept fx h ∧ Heap.run ordered .start log = some h.maps := by
  induction hreach with
  | start => exact ⟨.start, rfl⟩
  | step _ hallowed hmeets hstep ih =>
      obtain ⟨hk, hrun⟩ := ih
      obtain ⟨hkept, hmaps⟩ := step_kept hk hallowed hmeets hstep
      rw [Heap.run_snoc, hrun]
      exact ⟨hkept, hmaps⟩

/-- In every run whose steps meet the condition, every dictionary is the map in the order of
insertion that the same steps make, and is found, hashed and stepped through as one. -/
theorem dictionaries_exact (fx : HashInput → Nat) (log : List Op) (h : Heap DictStorage)
    (hreach : Reaches fx log h) :
    DictsExact fx h ∧ Heap.run ordered .start log = some (h.view DictStorage.entries) := by
  obtain ⟨hk, hrun⟩ := reaches_kept hreach
  exact ⟨hk.dictsExact, hrun⟩

def noHash : HashInput → Nat := fun _ => 0

/-- A literal that repeats a key, a copy of it, and a key removed from the copy. -/
def copiedThenRemoved : List Op :=
  [.literal [(.bool true, .nil), (.bool false, .nil), (.bool true, .bool true)], .clone 0 1,
    .remove 1 (.bool true) 1]

theorem dictionaries_exact_copied :
    ∃ h, Reaches noHash copiedThenRemoved h ∧ DictsExact noHash h ∧
      Heap.run ordered .start copiedThenRemoved = some (h.view DictStorage.entries) := by
  have hkeys : ∀ p ∈ [(Value.bool true, Value.nil), (.bool false, .nil), (.bool true, .bool true)],
      Steady p.1 ∧ (Heap.start : Heap DictStorage).Live p.1 := by
    simp [Steady, Heap.Live]
  have hliteral : Reaches noHash ([] ++ [.literal _]) _ :=
    .step .start (fun p hp => (hkeys p hp).2) (fun p hp => (hkeys p hp).1) rfl
  have hclone : Reaches noHash ([] ++ [.literal _] ++ [.clone 0 1]) _ :=
    .step hliteral trivial trivial rfl
  have hreach : Reaches noHash copiedThenRemoved _ :=
    .step hclone trivial (by
      rintro s ⟨⟩ -
      decide) rfl
  exact ⟨_, hreach, dictionaries_exact noHash copiedThenRemoved _ hreach⟩

/-- Two numbers past every double, equal and in different objects, are two keys. Removing
the first removes both. -/
def removedTogether : List Op :=
  [.alloc (.bigint (10 ^ 400)), .alloc (.bigint (10 ^ 400)),
    .literal [(.obj 0, .bool true), (.obj 1, .bool false)], .remove 2 (.obj 0) 1]

/-- A loop over a dictionary with a nil key ends before it sees that entry. -/
theorem removedTogether_wrong :
    (Heap.run (stored noHash) .start removedTogether).bind (fun h => h.dict 2) =
        some ⟨[], none⟩ ∧
      (Heap.run ordered .start removedTogether).bind (fun h => h.dict 2) =
        some [(.obj 1, .bool false)] ∧
      (DictStorage.fromPairs noHash (fun _ => none) [(.nil, .bool true)]).stepped noHash
        (fun _ => none) 2 .nil = some [] := by
  refine ⟨?_, ?_, ?_⟩ <;> decide

end Zuri.Vm
