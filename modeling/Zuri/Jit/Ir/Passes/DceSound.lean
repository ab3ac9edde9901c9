import Zuri.Jit.Ir.Passes.Dce

/-!
What is left when what nothing needs is gone.

The marks are closed: whatever is live is made of live values only. So the function that is
left can do without the rest, in scope and in every run. The two runs agree on the live values
alone.
-/

namespace Zuri.Jit.Ir

open Transition (Next observe Lockstep)

namespace Dce

/-- What the marks have to say of a function for it to run on without the rest. -/
structure Closed (f : Func) (live : List ValueId) (insts : List InstId) : Prop where
  effect : ∀ b, ∀ i ∈ (f.block b).insts, (f.inst i).op.hasEffect = true → i ∈ insts
  uses : ∀ i ∈ insts, ∀ v ∈ (f.inst i).uses, v ∈ live
  result : ∀ b, ∀ i ∈ (f.block b).insts, ∀ r ∈ (f.inst i).result, r ∈ live → i ∈ insts
  ends : ∀ b, ∀ v ∈ endUses (f.block b).term, v ∈ live
  edge : ∀ b, f.Reachable b → ∀ e ∈ (f.block b).term.edges,
    ∀ x ∈ e.2.zip (f.block e.1).params, x.2 ∈ live → x.1 ∈ live

section Positions

variable {α : Type} (p : α → Bool)

theorem getElem?_filter_take {l : List α} {j : Nat} {a : α} (h : l[j]? = some a)
    (ha : p a = true) : (l.filter p)[((l.take j).filter p).length]? = some a := by
  induction l generalizing j with
  | nil => simp at h
  | cons x l ih =>
      cases j with
      | zero =>
          obtain rfl := Option.some.inj h
          rw [List.filter_cons_of_pos ha]
          rfl
      | succ j =>
          have hrest : l[j]? = some a := h
          rw [List.take_succ_cons, List.filter_cons, List.filter_cons]
          split
          · exact ih hrest
          · exact ih hrest

theorem exists_filter_take {l : List α} {k : Nat} {a : α} (h : (l.filter p)[k]? = some a) :
    ∃ j, l[j]? = some a ∧ ((l.take j).filter p).length = k := by
  induction l generalizing k with
  | nil => simp at h
  | cons x l ih =>
      rw [List.filter_cons] at h
      split at h
      · next hx =>
          cases k with
          | zero => exact ⟨0, h, rfl⟩
          | succ k =>
              obtain ⟨j, hj, hlength⟩ := ih h
              refine ⟨j + 1, hj, ?_⟩
              rw [List.take_succ_cons, List.filter_cons_of_pos hx, List.length_cons, hlength]
      · next hx =>
          obtain ⟨j, hj, hlength⟩ := ih h
          refine ⟨j + 1, hj, ?_⟩
          rw [List.take_succ_cons, List.filter_cons_of_neg hx, hlength]

theorem filter_take_mono (l : List α) {j j' : Nat} (h : j ≤ j') :
    ((l.take j).filter p).length ≤ ((l.take j').filter p).length :=
  (((List.take_prefix_take_left h (l := l)).sublist).filter p).length_le

theorem filter_take_succ {l : List α} {j : Nat} {a : α} (h : l[j]? = some a) (ha : p a = true) :
    ((l.take (j + 1)).filter p).length = ((l.take j).filter p).length + 1 := by
  rw [List.take_add_one, h, List.filter_append, List.length_append, Option.toList_some,
    List.filter_cons_of_pos ha]
  rfl

end Positions

section Keep

variable {f : Func} {insts : List InstId}

theorem keepInsts_block (b : BlockId) : (keepInsts f insts).block b =
    { f.block b with insts := (f.block b).insts.filter (· ∈ insts) } := by
  simp only [keepInsts, Func.block, List.getD_eq_getElem?_getD, List.getElem?_map]
  cases f.blocks[b]? <;> rfl

theorem keepInsts_succs (b : BlockId) : (keepInsts f insts).succs b = f.succs b := by
  rw [Func.succs, keepInsts_block, Func.succs]

theorem keepInsts_edge : (keepInsts f insts).Edge = f.Edge := by
  funext u v
  rw [Func.Edge, Func.Edge, keepInsts_succs]

theorem keepInsts_reachable (b : BlockId) : (keepInsts f insts).Reachable b ↔ f.Reachable b := by
  rw [Func.Reachable, Func.Reachable, keepInsts_edge]
  rfl

theorem keepInsts_preds (b : BlockId) : (keepInsts f insts).preds b = f.preds b := by
  have hcount : (keepInsts f insts).blocks.length = f.blocks.length := List.length_map _
  unfold Func.preds
  rw [hcount]
  exact List.flatMap_congr fun c _ => by rw [keepInsts_succs]

theorem keepInsts_fed (h : f.Fed) : (keepInsts f insts).Fed := by
  rw [Func.fed_iff] at h ⊢
  intro b e he
  rw [keepInsts_block] at he ⊢
  exact h b e he

theorem keepInsts_fits (hv : f.Valid) (b : BlockId) (hr : (keepInsts f insts).Reachable b) :
    ∀ e ∈ ((keepInsts f insts).block b).term.edges, (keepInsts f insts).Fits e := by
  intro e he
  rw [keepInsts_block] at he
  have hfits := hv.edges b ((keepInsts_reachable b).mp hr) e he
  rw [Func.Fits, keepInsts_block]
  exact hfits

theorem insts_nodup (hs : f.Ssa) (b : BlockId) : (f.block b).insts.Nodup := by
  rw [List.nodup_iff_injective_get]
  intro i j hij
  have hi : (f.block b).insts[i.val]? = some ((f.block b).insts.get i) := List.getElem?_eq_getElem _
  have hj : (f.block b).insts[j.val]? = some ((f.block b).insts.get i) := by
    rw [hij]
    exact List.getElem?_eq_getElem _
  exact Fin.ext (hs.place hi hj).2

/-- A definition that is left was one, and says by which instruction it still is. -/
theorem defines_of_keep {v : ValueId} {d : BlockId} {i : Nat}
    (hdef : (keepInsts f insts).Defines v d i) :
    (i = 0 ∧ v ∈ (f.block d).params) ∨
      ∃ (j k : Nat) (id : InstId), i = k + 1 ∧ ((keepInsts f insts).block d).insts[k]? = some id ∧
        (f.block d).insts[j]? = some id ∧ (f.inst id).result = some v := by
  obtain ⟨-, ⟨rfl, hp⟩ | ⟨k, inst, rfl, hk, hr⟩⟩ := Func.mem_blockDefs.mp hdef
  · rw [keepInsts_block] at hp
    exact .inl ⟨rfl, hp⟩
  · right
    rw [Func.code, List.getElem?_map, Option.map_eq_some_iff] at hk
    obtain ⟨id, hid, rfl⟩ := hk
    have hfilter := hid
    rw [keepInsts_block] at hfilter
    obtain ⟨j, hj, -⟩ := exists_filter_take _ hfilter
    exact ⟨j, k, id, rfl, hid, hj, hr⟩

theorem keepInsts_place (hs : f.Ssa) {d b : BlockId} {i j : Nat} {id : InstId}
    (hi : ((keepInsts f insts).block d).insts[i]? = some id)
    (hj : ((keepInsts f insts).block b).insts[j]? = some id) : d = b ∧ i = j := by
  rw [keepInsts_block] at hi hj
  obtain ⟨i', hi', -⟩ := exists_filter_take _ hi
  obtain ⟨j', hj', -⟩ := exists_filter_take _ hj
  obtain ⟨rfl, -⟩ := hs.place hi' hj'
  refine ⟨rfl, ?_⟩
  have hn : ((f.block d).insts.filter (· ∈ insts)).Nodup := (insts_nodup hs d).filter _
  obtain ⟨hlt, heq⟩ := List.getElem?_eq_some_iff.mp hi
  obtain ⟨hlt', heq'⟩ := List.getElem?_eq_some_iff.mp hj
  exact (hn.getElem_inj_iff).mp (heq.trans heq'.symm)

theorem keepInsts_ssa (hs : f.Ssa) : (keepInsts f insts).Ssa where
  unique {v d d' i i'} hd hd' := by
    have hinst : ∀ {b : BlockId} {j : Nat} {id : InstId}, (f.block b).insts[j]? = some id →
        (f.inst id).result = some v → f.Defines v b (j + 1) := fun hj hr =>
      .inst (by rw [Func.code, List.getElem?_map, hj]; rfl) hr
    obtain ⟨rfl, hp⟩ | ⟨j, k, id, rfl, hk, hj, hr⟩ := defines_of_keep hd
    · obtain ⟨rfl, hp'⟩ | ⟨j', k', id', rfl, hk', hj', hr'⟩ := defines_of_keep hd'
      · exact ⟨(hs.unique (.param hp) (.param hp')).1, rfl⟩
      · exact absurd (hs.unique (.param hp) (hinst hj' hr')).2 (Nat.succ_ne_zero _).symm
    · obtain ⟨rfl, hp'⟩ | ⟨j', k', id', rfl, hk', hj', hr'⟩ := defines_of_keep hd'
      · exact absurd (hs.unique (hinst hj hr) (.param hp')).2 (Nat.succ_ne_zero _)
      · obtain ⟨rfl, hjj⟩ := hs.unique (hinst hj hr) (hinst hj' hr')
        obtain rfl := Nat.succ.inj hjj
        obtain rfl : id = id' := Option.some.inj (hj.symm.trans hj')
        exact ⟨rfl, congrArg (· + 1) (keepInsts_place hs hk hk').2⟩
  params b := by
    rw [keepInsts_block]
    exact hs.params b
  place := keepInsts_place hs
  param b p hp := by
    rw [keepInsts_block] at hp
    exact hs.param b p hp
  inst b i hi r hr := by
    rw [keepInsts_block] at hi
    exact hs.inst b i (List.mem_filter.mp hi).1 r hr

end Keep

section Cutting

variable {f g : Func} {live : List ValueId} {b : BlockId}

theorem dropParam_drops (k : Nat) : Drops (dropParam · k) k :=
  ⟨fun _ => rfl, fun _ => rfl, fun _ => rfl⟩

/-- Some parameters that are not live are gone. -/
def Trimmed (f g : Func) (live : List ValueId) : Prop :=
  ∃ gone, Cut f g gone ∧ ∀ v ∈ gone, v ∉ live

/-- Those of the parameters of a block from an index on are live. -/
theorem scan_trims (hs : f.Ssa)
    (hfits : ∀ b, f.Reachable b → ∀ e ∈ (f.block b).term.edges, f.Fits e) (k : Nat)
    (h : Trimmed f g live) (hk : k ≤ (g.block b).params.length)
    (hlive : ∀ j p, k ≤ j → (g.block b).params[j]? = some p → p ∈ live) :
    Trimmed f (scan live (f.preds b) b k g) live ∧
      (∀ p ∈ ((scan live (f.preds b) b k g).block b).params, p ∈ live) ∧
      ∀ c, c ≠ b → ((scan live (f.preds b) b k g).block c).params = (g.block c).params := by
  induction k generalizing g with
  | zero =>
      refine ⟨h, fun p hp => ?_, fun _ _ => rfl⟩
      obtain ⟨j, hj⟩ := List.mem_iff_getElem?.mp hp
      exact hlive j p (Nat.zero_le j) hj
  | succ k ih =>
      have hget : (g.block b).params[k]? = some ((g.block b).params.getD k 0) := by
        rw [List.getD_eq_getElem?_getD, List.getElem?_eq_getElem hk]
        rfl
      rw [scan]
      split
      · next hmem =>
          refine ih h (Nat.le_of_lt hk) fun j p hj hp => ?_
          rcases Nat.eq_or_lt_of_le hj with rfl | hlt
          · rw [hget] at hp
            exact Option.some.inj hp ▸ hmem
          · exact hlive j p hlt hp
      · next hmem =>
          obtain ⟨gone, hcut, hdead⟩ := h
          have hb : b < g.blocks.length := lt_of_param (List.mem_of_getElem? hget)
          have hnext := hcut.remove (dropParam_drops k) hs hfits hget
          rw [hcut.preds_eq] at hnext
          have hparams := cutParam_params (dropParam_drops k) hb
          rw [hcut.preds_eq] at hparams
          obtain ⟨htrim, hall, hother⟩ := ih (g := cutParam (dropParam · k) g (f.preds b) b k)
            ⟨_, hnext, fun v hv => by
              rcases List.mem_cons.mp hv with rfl | hv
              · exact hmem
              · exact hdead v hv⟩
            (by
              rw [hparams, if_pos rfl, List.length_eraseIdx_of_lt hk]
              omega)
            (fun j p hj hp => by
              rw [hparams, if_pos rfl, List.getElem?_eraseIdx_of_ge hj] at hp
              exact hlive (j + 1) p (Nat.succ_le_succ hj) hp)
          refine ⟨htrim, hall, fun c hc => ?_⟩
          rw [hother c hc, hparams, if_neg hc]

theorem scans_trim (hs : f.Ssa)
    (hfits : ∀ b, f.Reachable b → ∀ e ∈ (f.block b).term.edges, f.Fits e)
    (blocks : List BlockId) (h : Trimmed f g live) (done : List BlockId)
    (hdone : ∀ c ∈ done, ∀ p ∈ (g.block c).params, p ∈ live) :
    let t := blocks.foldl (fun g b => scan live (f.preds b) b (g.block b).params.length g) g
    Trimmed f t live ∧ ∀ c, c ∈ done ∨ c ∈ blocks → ∀ p ∈ (t.block c).params, p ∈ live := by
  induction blocks generalizing g done with
  | nil => exact ⟨h, fun c hc => hdone c (hc.resolve_right List.not_mem_nil)⟩
  | cons b blocks ih =>
      obtain ⟨htrim, hall, hother⟩ := scan_trims (b := b) hs hfits _ h (Nat.le_refl _)
        (fun j p hj hp => by
          rw [List.getElem?_eq_none hj] at hp
          cases hp)
      obtain ⟨hrest, hlive⟩ := ih htrim (b :: done) (fun c hc p hp => by
        by_cases hcb : c = b
        · subst hcb
          exact hall p hp
        · rw [hother c hcb] at hp
          exact hdone c ((List.mem_cons.mp hc).resolve_left hcb) p hp)
      refine ⟨hrest, fun c hc => hlive c ?_⟩
      rcases hc with hc | hc
      · exact .inl (List.mem_cons_of_mem _ hc)
      · rcases List.mem_cons.mp hc with rfl | hc
        · exact .inl List.mem_cons_self
        · exact .inr hc

/-- Exactly the parameters that are not live go. -/
theorem cutParams_trims (hs : f.Ssa)
    (hfits : ∀ b, f.Reachable b → ∀ e ∈ (f.block b).term.edges, f.Fits e) :
    Trimmed f (cutParams live f.preds f) live ∧
      ∀ b, ∀ p ∈ ((cutParams live f.preds f).block b).params, p ∈ live := by
  obtain ⟨⟨gone, hcut, hdead⟩, hlive⟩ := scans_trim hs hfits (List.range f.blocks.length)
    ⟨[], Cut.refl hfits, fun _ hv => absurd hv List.not_mem_nil⟩ []
    (fun _ hc => absurd hc List.not_mem_nil)
  refine ⟨⟨gone, hcut, hdead⟩, fun b p hp => ?_⟩
  have hb := lt_of_param hp
  exact hlive b (.inr (List.mem_range.mpr (hcut.count ▸ hb))) p hp

end Cutting

section Closing

variable {f : Func} {s : Marks}

theorem block_cases (f : Func) (b : BlockId) : f.block b ∈ f.blocks ∨ f.block b = Func.noBlock := by
  by_cases hb : b < f.blocks.length
  · left
    rw [Func.block, List.getD_eq_getElem _ _ hb]
    exact List.getElem_mem hb
  · exact .inr (Func.block_of_le (Nat.le_of_not_lt hb))

theorem origin_of_get {v : ValueId} {ty : Ty} {d : ValueDef} (h : f.values[v]? = some ⟨ty, d⟩) :
    origin f v = d := by
  rw [origin, List.getD_eq_getElem?_getD, h]
  rfl

theorem Marking.closed (h : Marking f f.preds s) (hs : f.Ssa) (hwork : s.work = []) :
    Closed f s.live s.insts where
  effect b i hi heffect := by
    rcases block_cases f b with hb | hb
    · exact h.effects _ hb (List.mem_filter.mpr ⟨hi, heffect⟩)
    · rw [hb] at hi
      exact absurd hi List.not_mem_nil
  uses i hi v hv := h.uses i hi hv
  result b i hi r hr hlive := by
    obtain ⟨ty, hvalue⟩ := hs.inst b i hi r hr
    have hkeeps := (h.needs r hlive (by rw [hwork]; exact List.not_mem_nil)).2
    rw [keeps, origin_of_get hvalue] at hkeeps
    exact hkeeps (List.mem_singleton.mpr rfl)
  ends b v hv := by
    rcases block_cases f b with hb | hb
    · exact h.seeds _ hb (List.mem_append_left _ (List.mem_append_right _ hv))
    · rw [hb] at hv
      exact absurd hv List.not_mem_nil
  edge b hr e he x hx hlive := by
    obtain ⟨k, hk, rfl⟩ := List.mem_iff_getElem.mp hx
    rw [List.getElem_zip] at hlive ⊢
    rw [List.length_zip] at hk
    have hke : k < e.2.length := by omega
    have hkp : k < (f.block e.1).params.length := by omega
    have hp := List.getElem_mem hkp
    obtain ⟨ty, n, hvalue⟩ := hs.param e.1 _ hp
    have hneeds := (h.needs _ hlive (by rw [hwork]; exact List.not_mem_nil)).1
    have hpred : b ∈ f.preds e.1 := by
      refine mem_preds_iff.mpr ⟨?_, Func.mem_edges_succs he⟩
      by_contra hge
      rw [Func.block_of_le (Nat.le_of_not_lt hge)] at he
      exact absurd he List.not_mem_nil
    refine hneeds ?_
    rw [Dce.needs, origin_of_get hvalue]
    simp only
    rw [if_pos hp, (hs.params e.1).idxOf_getElem k hkp]
    refine List.mem_flatMap.mpr ⟨b, hpred, List.mem_map.mpr ⟨e.2, ?_, ?_⟩⟩
    · exact List.mem_map.mpr ⟨e, List.mem_filter.mpr ⟨he, decide_eq_true rfl⟩, rfl⟩
    · exact List.getD_eq_getElem _ _ hke

end Closing

/-- A function with its instructions and parameters cut down to what is marked. -/
structure Sliced (f g : Func) (live : List ValueId) (kept : List InstId) (gone : List ValueId) :
    Prop where
  entry : g.entry = f.entry
  count : g.blocks.length = f.blocks.length
  insts : g.insts = f.insts
  values : g.values = f.values
  frames : g.frames = f.frames
  paramClasses : g.paramClasses = f.paramClasses
  succs : ∀ b, g.succs b = f.succs b
  code : ∀ b, (g.block b).insts = (f.block b).insts.filter (· ∈ kept)
  gone_iff : ∀ b, ∀ p ∈ (f.block b).params, p ∈ gone ↔ p ∉ live
  params : ∀ b, (g.block b).params = (f.block b).params.filter (· ∉ gone)
  term : ∀ b, f.Reachable b → (g.block b).term =
    mapEdges (fun c args => keepArgs gone (f.block c).params args) (f.block b).term
  fed : f.Fed → g.Fed

section Slice

variable {f g : Func} {live : List ValueId} {insts : List InstId} {gone : List ValueId}

theorem sliced_of_cut (h : Cut (keepInsts f insts) g gone) (hdead : ∀ v ∈ gone, v ∉ live)
    (hlive : ∀ b, ∀ p ∈ (g.block b).params, p ∈ live) : Sliced f g live insts gone where
  entry := h.entry
  count := h.count.trans (List.length_map _)
  insts := h.insts
  values := h.values
  frames := h.frames
  paramClasses := h.paramClasses
  succs b := (h.succs b).trans (keepInsts_succs b)
  code b := by rw [h.code b, keepInsts_block]
  gone_iff b p hp := by
    refine ⟨hdead p, fun hnot => ?_⟩
    by_contra hgone
    refine hnot (hlive b p ?_)
    rw [h.params b, keepInsts_block]
    exact List.mem_filter.mpr ⟨hp, decide_eq_true hgone⟩
  params b := by rw [h.params b, keepInsts_block]
  term b hr := by
    rw [h.term b ((keepInsts_reachable b).mpr hr), keepInsts_block]
    exact mapEdges_congr fun e _ => by rw [keepInsts_block]
  fed hfed := h.fed (keepInsts_fed hfed)

/-- How many of the instructions before a position stay. -/
def place (f : Func) (insts : List InstId) (b : BlockId) (j : Nat) : Nat :=
  (((f.block b).insts.take j).filter (· ∈ insts)).length

namespace Sliced

theorem inst_eq (h : Sliced f g live insts gone) (i : InstId) : g.inst i = f.inst i := by
  rw [Func.inst, Func.inst, h.insts]

theorem edge_eq (h : Sliced f g live insts gone) : g.Edge = f.Edge := by
  funext u v
  rw [Func.Edge, Func.Edge, h.succs u]

theorem reachable_iff (h : Sliced f g live insts gone) (b : BlockId) :
    g.Reachable b ↔ f.Reachable b := by
  rw [Func.Reachable, Func.Reachable, h.edge_eq, h.entry]

theorem params_live (h : Sliced f g live insts gone) (b : BlockId) :
    (g.block b).params = (f.block b).params.filter (· ∈ live) := by
  rw [h.params b]
  refine List.filter_congr fun p hp => ?_
  have := h.gone_iff b p hp
  by_cases hlive : p ∈ live <;> simp_all

theorem defines_param (h : Sliced f g live insts gone) {v : ValueId} {d : BlockId}
    (hp : v ∈ (f.block d).params) (hv : v ∈ live) : g.Defines v d 0 := by
  refine .param ?_
  rw [h.params_live d]
  exact List.mem_filter.mpr ⟨hp, decide_eq_true hv⟩

theorem defines_inst (h : Sliced f g live insts gone) {v : ValueId} {d : BlockId} {j : Nat}
    {i : InstId} (hj : (f.block d).insts[j]? = some i) (hi : i ∈ insts)
    (hr : (f.inst i).result = some v) : g.Defines v d (place f insts d j + 1) := by
  have hcode : (g.code d)[place f insts d j]? = some (f.inst i) := by
    rw [Func.code, h.code d, List.getElem?_map, place,
      getElem?_filter_take _ hj (decide_eq_true hi), Option.map_some, h.inst_eq]
  exact .inst hcode hr

theorem inScope (h : Sliced f g live insts gone) (hc : Closed f live insts) {v : ValueId}
    {b : BlockId} {j : Nat} (hv : v ∈ live) (hscope : f.InScope v b j) :
    g.InScope v b (place f insts b j) := by
  have hdom : ∀ d, f.Dom d b → g.Dom d b := fun d hd => by
    unfold Func.Dom at hd ⊢
    rwa [h.edge_eq, h.entry]
  obtain ⟨d, i, hdef, hbefore⟩ := hscope
  obtain ⟨-, ⟨rfl, hp⟩ | ⟨k, inst, rfl, hk, hr⟩⟩ := Func.mem_blockDefs.mp hdef
  · refine ⟨d, 0, h.defines_param hp hv, ?_⟩
    rcases hbefore with ⟨rfl, -⟩ | ⟨hne, hd⟩
    · exact .inl ⟨rfl, Nat.zero_le _⟩
    · exact .inr ⟨hne, hdom d hd⟩
  · rw [Func.code, List.getElem?_map, Option.map_eq_some_iff] at hk
    obtain ⟨id, hid, rfl⟩ := hk
    have hkeep := hc.result d id (List.mem_of_getElem? hid) v hr hv
    refine ⟨d, _, h.defines_inst hid hkeep hr, ?_⟩
    rcases hbefore with ⟨rfl, hle⟩ | ⟨hne, hd⟩
    · left
      refine ⟨rfl, ?_⟩
      have hsucc := filter_take_succ (· ∈ insts) hid (decide_eq_true hkeep)
      have hmono := filter_take_mono (· ∈ insts) (f.block d).insts hle
      exact hsucc ▸ hmono
    · exact .inr ⟨hne, hdom d hd⟩

/-- The uses that are left at the end of a block are live, and the block had them. -/
theorem term_uses (h : Sliced f g live insts gone) (hc : Closed f live insts)
    {b : BlockId} (hr : f.Reachable b) {v : ValueId} (hmem : v ∈ (g.block b).term.uses) :
    v ∈ live ∧ v ∈ (f.block b).term.uses := by
  have hargs : ∀ e ∈ (f.block b).term.edges,
      v ∈ keepArgs gone (f.block e.1).params e.2 → v ∈ live := by
    intro e he hkeep
    obtain ⟨x, hx, rfl⟩ := List.mem_map.mp hkeep
    obtain ⟨hzip, hgone⟩ := List.mem_filter.mp hx
    have hp := (List.of_mem_zip hzip).1
    refine hc.edge b hr e he (x.2, x.1) (mem_zip_comm hzip) ?_
    by_contra hnot
    exact of_decide_eq_true hgone ((h.gone_iff _ _ hp).mpr hnot)
  rw [h.term b hr] at hmem
  refine ⟨?_, uses_mapEdges (fun c args => keepArgs_subset _ _ args) _ hmem⟩
  have hends := hc.ends b
  cases ht : (f.block b).term with
  | jump target args =>
      rw [ht] at hmem hargs
      exact hargs (target, args) (List.mem_singleton.mpr rfl) hmem
  | branch cond tb ta eb ea =>
      rw [ht] at hmem hargs hends
      rcases List.mem_cons.mp hmem with rfl | hmem
      · exact hends v (List.mem_singleton.mpr rfl)
      · rcases List.mem_append.mp hmem with hmem | hmem
        · exact hargs (tb, ta) List.mem_cons_self hmem
        · exact hargs (eb, ea) (List.mem_cons_of_mem _ (List.mem_singleton.mpr rfl)) hmem
  | ret u => rw [ht] at hmem hends; exact hends v hmem
  | deopt state => rw [ht] at hmem hends; exact hends v hmem
  | unset => rw [ht] at hmem; exact absurd hmem List.not_mem_nil

theorem valid (h : Sliced f g live insts gone) (hc : Closed f live insts) (hv : f.Valid) :
    g.Valid where
  entry := by
    rw [h.entry, h.count]
    exact hv.entry
  succs b s hmem := by
    rw [h.succs b] at hmem
    rw [h.count]
    exact hv.succs b s hmem
  insts b i hmem := by
    rw [h.code b] at hmem
    rw [h.insts]
    exact hv.insts b i (List.mem_filter.mp hmem).1
  term b hr hunset := by
    have hr := (h.reachable_iff b).mp hr
    have hterm := hv.term b hr
    rw [h.term b hr] at hunset
    cases ht : (f.block b).term with
    | unset => exact hterm ht
    | _ => rw [ht] at hunset; cases hunset
  uses b hr k inst hk v hmem := by
    have hr := (h.reachable_iff b).mp hr
    rw [Func.code, h.code b, List.getElem?_map, Option.map_eq_some_iff] at hk
    obtain ⟨i, hi, rfl⟩ := hk
    rw [h.inst_eq] at hmem
    obtain ⟨j, hj, rfl⟩ := exists_filter_take _ hi
    have hkeep := of_decide_eq_true (List.mem_filter.mp (List.mem_of_getElem? hi)).2
    have hcode : (f.code b)[j]? = some (f.inst i) := by
      rw [Func.code, List.getElem?_map, hj, Option.map_some]
    exact h.inScope hc (hc.uses i hkeep v hmem) (hv.uses b hr j _ hcode v hmem)
  termUses b hr v hmem := by
    have hr := (h.reachable_iff b).mp hr
    obtain ⟨hlive, huse⟩ := h.term_uses hc hr hmem
    have hscope := h.inScope hc hlive (hv.termUses b hr v huse)
    rw [place, Func.code, List.length_map, List.take_length, ← h.code b] at hscope
    rwa [Func.code, List.length_map]
  edges b hr e hmem := by
    have hr := (h.reachable_iff b).mp hr
    rw [h.term b hr, edges_mapEdges] at hmem
    obtain ⟨old, hold, rfl⟩ := List.mem_map.mp hmem
    have hfits := hv.edges b hr old hold
    refine ⟨?_, fun x hx => ?_⟩
    · have hkeys := congrArg List.length (map_fst_zip_filter gone (Nat.le_of_eq hfits.1.symm))
      rw [List.length_map] at hkeys
      simp only [keepArgs, List.length_map, h.params]
      exact hkeys
    · simp only [h.params] at hx
      obtain ⟨a, ha, hpassed⟩ := keepArgs_zip gone id hfits.1.symm (by rwa [List.map_id])
      have hty : ∀ v, g.ty v = f.ty v := fun v => by rw [Func.ty, h.values, Func.ty]
      rw [hty, hty, ha]
      exact hfits.2 _ (mem_zip_comm hpassed)

end Sliced

theorem cut_ssa (h : Cut f g gone) (hs : f.Ssa) : g.Ssa := by
  have hcode : ∀ b, g.code b = f.code b := fun b => by
    rw [Func.code, h.code b, Func.code]
    exact List.map_congr_left fun i _ => by rw [Func.inst, h.insts, Func.inst]
  have hdefines : ∀ {v d i}, g.Defines v d i → f.Defines v d i := by
    intro v d i hdef
    obtain ⟨-, ⟨rfl, hp⟩ | ⟨j, inst, rfl, hj, hr⟩⟩ := Func.mem_blockDefs.mp hdef
    · rw [h.params d] at hp
      exact .param (List.mem_filter.mp hp).1
    · exact .inst (hcode d ▸ hj) hr
  refine ⟨fun hd hd' => hs.unique (hdefines hd) (hdefines hd'), fun b => ?_, fun hi hj => ?_,
    fun b p hp => ?_, fun b i hi r hr => ?_⟩
  · rw [h.params b]
    exact (hs.params b).filter _
  · rw [h.code] at hi hj
    exact hs.place hi hj
  · rw [h.params b] at hp
    rw [h.values]
    exact hs.param b p (List.mem_filter.mp hp).1
  · rw [h.code b] at hi
    rw [Func.inst, h.insts] at hr
    rw [h.values]
    exact hs.inst b i hi r hr

end Slice

section Running

variable {M : Machine} {f g : Func} {live : List ValueId} {insts : List InstId}
  {gone : List ValueId}

/-- Both runs hold the same in every live value. -/
def Agree (live : List ValueId) (env env' : Env) : Prop := ∀ v, v ∈ live → env' v = env v

theorem agree_iff {env env' : Env} :
    Agree live env env' ↔ ∀ v, ¬ v ∉ live → env' v = env v := by
  simp only [Agree, not_not]

/-- An operation without an effect goes on and leaves memory as it is. -/
theorem eval_quiet (f : Func) (w : World M.Rest) (regs : List (Nat × Value)) (args : List Val)
    {op : Op} (h : op.hasEffect = false) : ∃ v, op.eval f w regs args = .next v w := by
  unfold Op.eval
  simp only
  split
  · exact ⟨_, rfl⟩
  · split
    · exact ⟨_, rfl⟩
    · split
      · cases h
      · cases h
      · cases h
      · refine ⟨none, ?_⟩
        cases op <;> first | rfl | cases h

theorem quiet_of_no_effect {op : Op} (h : op.hasEffect = false) : op.visible = false := by
  unfold Op.visible
  split
  · rfl
  · rfl
  · rfl
  · rfl
  · exact h

/-- An instruction that goes shows nothing and changes only its result. -/
theorem run_dead {inst : Inst} (h : inst.op.hasEffect = false) (env : Env) (w : World M.Rest) :
    ∃ v, inst.run f env w = ([], .on (env.define inst.result v, w)) := by
  obtain ⟨v, hv⟩ := eval_quiet f w (inst.regs env) (inst.args.map env) h
  refine ⟨v, ?_⟩
  simp only [Inst.run, hv, quiet_of_no_effect h, Bool.false_eq_true, if_false]

namespace Sliced

theorem run_insts (h : Sliced f g live insts gone) (hc : Closed f live insts) {b : BlockId}
    (ids : List InstId) (hids : ids ⊆ (f.block b).insts) {env env' : Env} (w : World M.Rest)
    (ha : Agree live env env') :
    (∃ seen o, runInsts f (ids.map f.inst) env w = (seen, .done o) ∧
      runInsts g ((ids.filter (· ∈ insts)).map g.inst) env' w = (seen, .done o)) ∨
    ∃ seen env₁ env₁' w₁, runInsts f (ids.map f.inst) env w = (seen, .on (env₁, w₁)) ∧
      runInsts g ((ids.filter (· ∈ insts)).map g.inst) env' w = (seen, .on (env₁', w₁)) ∧
      Agree live env₁ env₁' := by
  induction ids generalizing env env' w with
  | nil => exact .inr ⟨[], env, env', w, rfl, rfl, ha⟩
  | cons i ids ih =>
      have hi := hids List.mem_cons_self
      have hrest : ids ⊆ (f.block b).insts := fun x hx => hids (List.mem_cons_of_mem _ hx)
      by_cases hkeep : i ∈ insts
      · have hfilter : (i :: ids).filter (· ∈ insts) = i :: ids.filter (· ∈ insts) := by
          simp [hkeep]
        rw [hfilter]
        simp only [List.map_cons, runInsts, h.inst_eq i]
        have huses : ∀ v ∈ (f.inst i).uses, env' (id v) = env v := fun v hv =>
          ha v (hc.uses i hkeep v hv)
        have hsame := Inst.run_mapUses h.frames h.paramClasses w huses
        rw [Inst.mapUses_id, id] at hsame
        rcases hsame with ⟨seen, o, h1, h2⟩ | ⟨seen, val, w₁, h1, h2⟩
        · exact .inl ⟨seen, o, by rw [h1], by rw [h2]⟩
        · have hagree := agree_iff.mpr (Env.define_agree (agree_iff.mp ha) (f.inst i).result val)
          simp only [h1, h2]
          rcases ih hrest w₁ hagree with ⟨more, o, h3, h4⟩ | ⟨more, e₂, e₂', w₂, h3, h4, h5⟩
          · exact .inl ⟨_, _, by rw [h3], by rw [h4]⟩
          · exact .inr ⟨_, _, _, _, by rw [h3], by rw [h4], h5⟩
      · have hquiet : (f.inst i).op.hasEffect = false := by
          cases heffect : (f.inst i).op.hasEffect with
          | false => rfl
          | true => exact absurd (hc.effect b i hi heffect) hkeep
        obtain ⟨val, hrun⟩ := run_dead (f := f) hquiet env w
        have hagree : Agree live (env.define (f.inst i).result val) env' := fun v hv => by
          rw [Env.define_of_ne env val fun hr => hkeep (hc.result b i hi v hr hv)]
          exact ha v hv
        have hfilter : (i :: ids).filter (· ∈ insts) = ids.filter (· ∈ insts) := by simp [hkeep]
        rw [hfilter]
        simp only [List.map_cons, runInsts, hrun, List.nil_append]
        rcases ih hrest w hagree with ⟨seen, o, h1, h2⟩ | ⟨seen, e₁, e₁', w₁, h1, h2, h3⟩
        · exact .inl ⟨seen, o, by rw [h1], h2⟩
        · exact .inr ⟨seen, e₁, e₁', w₁, by rw [h1], h2, h3⟩

/-- Entering a block over an edge that passes less. -/
theorem enter_agree (h : Sliced f g live insts gone) (hc : Closed f live insts) (hs : f.Ssa)
    (hv : f.Valid) {b : BlockId} (hr : f.Reachable b) {e : BlockId × List ValueId}
    (he : e ∈ (f.block b).term.edges) {env env' : Env} (ha : Agree live env env') :
    Agree live (env.enter (f.block e.1).params (e.2.map env))
      (env'.enter (g.block e.1).params
        ((keepArgs gone (f.block e.1).params e.2).map env')) := by
  intro v hlive
  have hfits := hv.edges b hr e he
  rw [h.params e.1]
  by_cases hp : v ∈ (f.block e.1).params
  · obtain ⟨a, -, hzip, hpassed⟩ := hfits.arg hp
    have hgone : v ∉ gone := fun hmem => (h.gone_iff e.1 v hp).mp hmem hlive
    have hbefore : (v, env a) ∈ (f.block e.1).params.zip (e.2.map env) := by
      rw [List.zip_map_right, List.mem_map]
      exact ⟨(v, a), hpassed, rfl⟩
    have hafter : (v, env' a) ∈ ((f.block e.1).params.filter (· ∉ gone)).zip
        ((keepArgs gone (f.block e.1).params e.2).map env') := by
      rw [← map_fst_zip_filter gone (Nat.le_of_eq hfits.1.symm), keepArgs, List.map_map,
        List.zip_map', List.mem_map]
      exact ⟨(v, a), List.mem_filter.mpr ⟨hpassed, decide_eq_true hgone⟩, rfl⟩
    rw [Env.enter_mem _ (hs.params e.1) hbefore, Env.enter_mem _ ((hs.params e.1).filter _) hafter]
    exact ha a (hc.edge b hr e he _ hzip hlive)
  · rw [Env.enter_of_not_mem _ _ _ hp,
      Env.enter_of_not_mem _ _ _ fun hmem => hp (List.mem_filter.mp hmem).1]
    exact ha v hlive

/-- A block that leaves for the interpreter does so for the same reason. -/
theorem any_unreached (h : Sliced f g live insts gone) (hc : Closed f live insts) (b : BlockId) :
    ((g.code b).any fun i => i.op = .unreached) = (f.code b).any fun i => i.op = .unreached := by
  rw [Func.code, h.code b, Func.code, Bool.eq_iff_iff]
  simp only [List.any_eq_true, decide_eq_true_eq, List.mem_map, h.inst_eq]
  constructor
  · rintro ⟨_, ⟨i, hi, rfl⟩, hop⟩
    exact ⟨_, ⟨i, (List.mem_filter.mp hi).1, rfl⟩, hop⟩
  · rintro ⟨_, ⟨i, hi, rfl⟩, hop⟩
    have hkeep := hc.effect b i hi (by rw [hop]; rfl)
    exact ⟨_, ⟨i, List.mem_filter.mpr ⟨hi, decide_eq_true hkeep⟩, rfl⟩, hop⟩

theorem run_term (h : Sliced f g live insts gone) (hc : Closed f live insts) (hs : f.Ssa)
    (hv : f.Valid) {b : BlockId} (hr : f.Reachable b) {env env' : Env} (w : World M.Rest)
    (ha : Agree live env env') :
    (∃ seen o, (f.block b).term.run f (f.code b) env w = (seen, .done o) ∧
      (g.block b).term.run g (g.code b) env' w = (seen, .done o)) ∨
    ∃ seen c env₁ env₁', (f.block b).term.run f (f.code b) env w = (seen, .on ⟨c, env₁, w⟩) ∧
      (g.block b).term.run g (g.code b) env' w = (seen, .on ⟨c, env₁', w⟩) ∧
      Agree live env₁ env₁' ∧ f.Reachable c := by
  have hends := hc.ends b
  have hedges := fun e he => h.enter_agree hc hs hv hr (e := e) he ha
  have hreach : ∀ e ∈ (f.block b).term.edges, f.Reachable e.1 := fun e he =>
    .step hr (Func.mem_edges_succs he)
  have hany := h.any_unreached hc b
  rw [h.term b hr]
  cases ht : (f.block b).term with
  | jump target args =>
      rw [ht] at hedges hreach
      have hmem : (target, args) ∈ Terminator.edges (.jump target args) :=
        List.mem_singleton.mpr rfl
      exact .inr ⟨_, _, _, _, rfl, rfl, hedges _ hmem, hreach _ hmem⟩
  | branch cond tb ta eb ea =>
      rw [ht] at hedges hreach hends
      have hcond : env' cond = env cond := ha cond (hends cond (List.mem_singleton.mpr rfl))
      have hthen : (tb, ta) ∈ Terminator.edges (.branch cond tb ta eb ea) := List.mem_cons_self
      have helse : (eb, ea) ∈ Terminator.edges (.branch cond tb ta eb ea) :=
        List.mem_cons_of_mem _ (List.mem_singleton.mpr rfl)
      right
      simp only [mapEdges, Terminator.run, hcond]
      cases (env cond).asBool with
      | false => exact ⟨_, _, _, _, rfl, rfl, hedges _ helse, hreach _ helse⟩
      | true => exact ⟨_, _, _, _, rfl, rfl, hedges _ hthen, hreach _ hthen⟩
  | ret v =>
      rw [ht] at hends
      have hsame : env' v = env v := ha v (hends v (List.mem_singleton.mpr rfl))
      exact .inl ⟨_, _, rfl, by simp only [mapEdges, Terminator.run, hsame]⟩
  | deopt state =>
      rw [ht] at hends
      have hregs : env'.regs state.regs = env.regs state.regs :=
        List.map_congr_left fun e hmem => by
          rw [ha e.2 (hends e.2 (List.mem_map_of_mem hmem))]
      refine .inl ⟨_, _, rfl, ?_⟩
      simp only [mapEdges, Terminator.run, leaveThrough, hregs, hany]
  | unset => exact .inl ⟨_, _, rfl, rfl⟩

/-- The states of the two runs that belong together. -/
def Related (f : Func) (live : List ValueId) (s t : State M.Rest) : Prop :=
  t.block = s.block ∧ t.world = s.world ∧ Agree live s.env t.env ∧ f.Reachable s.block

theorem lockstep (h : Sliced f g live insts gone) (hc : Closed f live insts) (hs : f.Ssa)
    (hv : f.Valid) : Lockstep (f.step (M := M)) g.step (Related f live) := by
  rintro ⟨b, env, w⟩ ⟨b', env', w'⟩ ⟨hb, hw, ha, hr⟩
  cases hb
  cases hw
  have hcode : g.code b = ((f.block b).insts.filter (· ∈ insts)).map g.inst := by
    rw [Func.code, h.code b]
  have hrun := h.run_insts hc (f.block b).insts (fun _ hi => hi) w ha
  rw [← hcode] at hrun
  rcases hrun with ⟨seen, o, h1, h2⟩ | ⟨seen, env₁, env₁', w₁, h1, h2, h3⟩
  · right
    exact ⟨seen, o, by simp only [Func.step, Func.code, h1], by simp only [Func.step, h2]⟩
  · have h1' : runInsts f (f.code b) env w = (seen, .on (env₁, w₁)) := h1
    rcases h.run_term hc hs hv hr w₁ h3 with
      ⟨more, o, h4, h5⟩ | ⟨more, c, env₂, env₂', h4, h5, h6, h7⟩
    · right
      exact ⟨seen ++ more, o, by simp only [Func.step, h1', h4],
        by simp only [Func.step, h2, h5]⟩
    · left
      exact ⟨seen ++ more, ⟨c, env₂, w₁⟩, ⟨c, env₂', w₁⟩, by simp only [Func.step, h1', h4],
        by simp only [Func.step, h2, h5], rfl, rfl, h6, h7⟩

theorem observe_eq (h : Sliced f g live insts gone) (hc : Closed f live insts) (hs : f.Ssa)
    (hv : f.Valid) (w₀ : World M.Rest) (n : Nat) :
    observe f.step n (f.start w₀) = observe g.step n (g.start w₀) := by
  have hty : ∀ v, g.ty v = f.ty v := fun v => by rw [Func.ty, h.values, Func.ty]
  refine (h.lockstep hc hs hv).observe_eq n ⟨h.entry, rfl, fun v _ => ?_, .root⟩
  exact congrArg initialOf (hty v)

end Sliced

end Running

/-- A loop that swaps two parameters nothing needs, and reads a register back for nothing. -/
def swap : Func where
  blocks := [
    ⟨[], [], [], [0, 1, 2], .jump 1 [0, 1], some 0, 0⟩,
    ⟨[2, 3], [3, 4], [], [3], .branch 4 1 [3, 2] 2 [], some 4, 0⟩,
    ⟨[], [], [], [], .ret 0, none, 0⟩]
  insts := [
    ⟨.constTagged 0, [], some 0, none⟩,
    ⟨.constTagged 1, [], some 1, none⟩,
    ⟨.constBool false, [], some 4, none⟩,
    ⟨.reload 3, [2], some 5, none⟩]
  values := [⟨.tagged, .inst 0⟩, ⟨.tagged, .inst 1⟩, ⟨.tagged, .param 1 0⟩,
    ⟨.tagged, .param 1 1⟩, ⟨.bool, .inst 2⟩, ⟨.tagged, .inst 3⟩]
  entry := 0
  osrEntries := []
  frames := [⟨0, 0⟩]
  paramClasses _ _ := []

end Dce

end Zuri.Jit.Ir
