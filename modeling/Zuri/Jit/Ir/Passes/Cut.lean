import Zuri.Jit.Ir.Cfg
import Zuri.Jit.Ir.Edit
import Zuri.Jit.Ir.Verify

/-!
Taking parameters out of blocks.

A parameter goes together with what every edge into its block passes for it. `Cut` says how a
function with some of its parameters taken out compares with the function itself; the edges
that control can follow keep as many values as their targets have parameters, in their order.
-/

namespace Zuri.Jit.Ir

namespace Func

variable {f : Func}

/-- What an edge passes for a parameter. -/
theorem Fits.arg {e : BlockId × List ValueId} (h : f.Fits e) {p : ValueId}
    (hp : p ∈ (f.block e.1).params) :
    ∃ a ∈ e.2, (a, p) ∈ e.2.zip (f.block e.1).params ∧ (p, a) ∈ (f.block e.1).params.zip e.2 := by
  obtain ⟨k, hk, rfl⟩ := List.getElem_of_mem hp
  have hk' : k < e.2.length := h.1 ▸ hk
  refine ⟨e.2[k], List.getElem_mem hk', List.mem_iff_getElem.mpr ⟨k, ?_, List.getElem_zip⟩,
    List.mem_iff_getElem.mpr ⟨k, ?_, List.getElem_zip⟩⟩
  · rw [List.length_zip]
    omega
  · rw [List.length_zip]
    omega

end Func

/-- What the edges from one block into another pass. -/
def edgeArgs (f : Func) (source target : BlockId) : List (List ValueId) :=
  ((f.block source).term.edges.filter fun e => e.1 = target).map Prod.snd

/-- The edges into a block with other arguments. -/
def mapArgs (b : BlockId) (g : List ValueId → List ValueId) : Terminator → Terminator
  | .jump target args => .jump target (if target = b then g args else args)
  | .branch cond thenBlock thenArgs elseBlock elseArgs =>
      .branch cond thenBlock (if thenBlock = b then g thenArgs else thenArgs)
        elseBlock (if elseBlock = b then g elseArgs else elseArgs)
  | t => t

/-- A function in which `drop` has taken parameter `k` of `b` out of its block, and the edges
into `b` pass nothing for it. Where the source takes out by index what an edge into `b` passes,
there is something to take out if the function is `Fed`. -/
def cutParam (drop : Block → Block) (f : Func) (preds : List BlockId) (b : BlockId) (k : Nat) :
    Func :=
  { f with blocks := f.blocks.mapIdx fun i block =>
      let block := if i = b then drop block else block
      if i ∈ preds then { block with term := mapArgs b (·.eraseIdx k) block.term } else block }

/-- Taking a parameter out of a block changes nothing a run looks at but the parameters. -/
structure Drops (drop : Block → Block) (k : Nat) : Prop where
  params : ∀ block, (drop block).params = block.params.eraseIdx k
  insts : ∀ block, (drop block).insts = block.insts
  term : ∀ block, (drop block).term = block.term

def mapEdges (g : BlockId → List ValueId → List ValueId) : Terminator → Terminator
  | .jump target args => .jump target (g target args)
  | .branch cond thenBlock thenArgs elseBlock elseArgs =>
      .branch cond thenBlock (g thenBlock thenArgs) elseBlock (g elseBlock elseArgs)
  | t => t

/-- What is passed for the parameters that stay. -/
def keepArgs (gone params args : List ValueId) : List ValueId :=
  ((params.zip args).filter fun e => e.1 ∉ gone).map Prod.snd

/-- A function without some parameters and what was passed for them. What a block control cannot
reach passes may be anything. -/
structure Cut (f g : Func) (gone : List ValueId) : Prop where
  entry : g.entry = f.entry
  count : g.blocks.length = f.blocks.length
  insts : g.insts = f.insts
  values : g.values = f.values
  frames : g.frames = f.frames
  paramClasses : g.paramClasses = f.paramClasses
  succs : ∀ b, g.succs b = f.succs b
  code : ∀ b, (g.block b).insts = (f.block b).insts
  params : ∀ b, (g.block b).params = (f.block b).params.filter (· ∉ gone)
  term : ∀ b, f.Reachable b → (g.block b).term =
    mapEdges (fun c args => keepArgs gone (f.block c).params args) (f.block b).term
  fed : f.Fed → g.Fed

section Lists

variable {α : Type}

/-- Where keys differ, what is at an index goes by its key. -/
theorem eraseIdx_eq_filter (key : α → ValueId) {l : List α} (hn : (l.map key).Nodup) {k : Nat}
    {p : ValueId} (hk : (l.map key)[k]? = some p) :
    l.eraseIdx k = l.filter fun e => key e ≠ p := by
  induction l generalizing k with
  | nil => simp at hk
  | cons e l ih =>
      rw [List.map_cons, List.nodup_cons] at hn
      cases k with
      | zero =>
          obtain rfl := Option.some.inj hk
          rw [List.eraseIdx_cons_zero, List.filter_cons_of_neg (by simp)]
          refine (List.filter_eq_self.mpr fun x hx => ?_).symm
          have hne : key x ≠ key e := fun heq => hn.1 (heq ▸ List.mem_map_of_mem hx)
          simpa using hne
      | succ k =>
          have hrest : (l.map key)[k]? = some p := hk
          have hne : key e ≠ p := fun heq => hn.1 (heq ▸ List.mem_of_getElem? hrest)
          rw [List.eraseIdx_cons_succ, List.filter_cons_of_pos (by simpa using hne), ih hn.2 hrest]

theorem map_fst_zip_filter (gone : List ValueId) {params args : List ValueId}
    (h : params.length ≤ args.length) :
    ((params.zip args).filter fun e => e.1 ∉ gone).map Prod.fst = params.filter (· ∉ gone) := by
  have hzip := List.map_fst_zip h
  conv_rhs => rw [← hzip, List.filter_map]
  rfl

theorem filter_cons_gone (key : α → ValueId) (l : List α) (gone : List ValueId) (p : ValueId) :
    (l.filter fun e => key e ∉ gone).filter (fun e => key e ≠ p) =
      l.filter fun e => key e ∉ p :: gone := by
  rw [List.filter_filter]
  refine List.filter_congr fun e _ => ?_
  simp [not_or]

variable {gone params args : List ValueId} {p : ValueId} {k : Nat}

theorem mem_zip_comm {a : ValueId} (h : (p, a) ∈ params.zip args) :
    (a, p) ∈ args.zip params := by
  obtain ⟨i, hi, hget⟩ := List.mem_iff_getElem.mp h
  rw [List.length_zip] at hi
  rw [List.getElem_zip] at hget
  obtain ⟨rfl, rfl⟩ := Prod.mk.inj hget
  exact List.mem_iff_getElem.mpr ⟨i, by rw [List.length_zip]; omega, List.getElem_zip⟩

theorem keepArgs_nil (h : params.length = args.length) : keepArgs [] params args = args := by
  unfold keepArgs
  rw [List.filter_eq_self.mpr fun e _ => decide_eq_true List.not_mem_nil]
  exact List.map_snd_zip (Nat.le_of_eq h.symm)

/-- Removing an argument by its index removes what is passed for the parameter there. -/
theorem keepArgs_erase (hn : params.Nodup) (hlength : params.length = args.length)
    (hk : (params.filter (· ∉ gone))[k]? = some p) :
    (keepArgs gone params args).eraseIdx k = keepArgs (p :: gone) params args := by
  have hkeys := map_fst_zip_filter gone (Nat.le_of_eq hlength)
  have hnodup : (((params.zip args).filter fun e => e.1 ∉ gone).map Prod.fst).Nodup :=
    hkeys ▸ hn.filter _
  unfold keepArgs
  rw [List.eraseIdx_map, eraseIdx_eq_filter Prod.fst hnodup (by rwa [hkeys]),
    filter_cons_gone Prod.fst]

theorem keepArgs_other (hp : p ∉ params) :
    keepArgs (p :: gone) params args = keepArgs gone params args := by
  unfold keepArgs
  rw [← filter_cons_gone Prod.fst, List.filter_eq_self.mpr]
  intro e he
  have hne : e.1 ≠ p := fun heq => hp (heq ▸ (List.of_mem_zip (List.mem_filter.mp he).1).1)
  simpa using hne

/-- What is kept at an index is what is passed for the parameter there. -/
theorem keepArgs_get (hn : params.Nodup) (hlength : params.length = args.length)
    (hk : (params.filter (· ∉ gone))[k]? = some p) {a : ValueId} (ha : (p, a) ∈ params.zip args) :
    (keepArgs gone params args)[k]? = some a := by
  have hkeys := map_fst_zip_filter gone (Nat.le_of_eq hlength)
  have hnodup : (((params.zip args).filter fun e => e.1 ∉ gone).map Prod.fst).Nodup :=
    hkeys ▸ hn.filter _
  have hgone : p ∉ gone := of_decide_eq_true (List.mem_filter.mp (List.mem_of_getElem? hk)).2
  rw [← hkeys, List.getElem?_map, Option.map_eq_some_iff] at hk
  obtain ⟨e, he, rfl⟩ := hk
  have hmem : (e.1, a) ∈ (params.zip args).filter fun e => e.1 ∉ gone :=
    List.mem_filter.mpr ⟨ha, decide_eq_true hgone⟩
  have hsame := List.inj_on_of_nodup_map hnodup (List.mem_of_getElem? he) hmem rfl
  unfold keepArgs
  rw [List.getElem?_map, he, hsame]
  rfl

end Lists

theorem successors_mapArgs (b : BlockId) (g : List ValueId → List ValueId) (t : Terminator) :
    (mapArgs b g t).successors = t.successors := by
  cases t <;> rfl

theorem edges_mapEdges (g : BlockId → List ValueId → List ValueId) (t : Terminator) :
    (mapEdges g t).edges = t.edges.map fun e => (e.1, g e.1 e.2) := by
  cases t <;> rfl

theorem mapEdges_congr {g g' : BlockId → List ValueId → List ValueId} {t : Terminator}
    (h : ∀ e ∈ t.edges, g e.1 e.2 = g' e.1 e.2) : mapEdges g t = mapEdges g' t := by
  cases t with
  | jump target args =>
      rw [mapEdges, mapEdges, h (target, args) (List.mem_singleton.mpr rfl)]
  | branch cond tb ta eb ea =>
      rw [mapEdges, mapEdges, h (tb, ta) List.mem_cons_self,
        h (eb, ea) (List.mem_cons_of_mem _ (List.mem_singleton.mpr rfl))]
  | _ => rfl

theorem mapEdges_self {g : BlockId → List ValueId → List ValueId} {t : Terminator}
    (h : ∀ e ∈ t.edges, g e.1 e.2 = e.2) : mapEdges g t = t := by
  cases t with
  | jump target args => rw [mapEdges, h (target, args) (List.mem_singleton.mpr rfl)]
  | branch cond tb ta eb ea =>
      rw [mapEdges, h (tb, ta) List.mem_cons_self,
        h (eb, ea) (List.mem_cons_of_mem _ (List.mem_singleton.mpr rfl))]
  | _ => rfl

theorem mapArgs_eq (b : BlockId) (g : List ValueId → List ValueId) (t : Terminator) :
    mapArgs b g t = mapEdges (fun c args => if c = b then g args else args) t := by
  cases t <;> rfl

theorem mapEdges_mapEdges (g g' : BlockId → List ValueId → List ValueId) (t : Terminator) :
    mapEdges g (mapEdges g' t) = mapEdges (fun c args => g c (g' c args)) t := by
  cases t <;> rfl

section Remove

variable {f g : Func} {gone : List ValueId} {b : BlockId} {k : Nat} {p : ValueId}
  {drop : Block → Block}

theorem mem_preds_iff {c : BlockId} : c ∈ f.preds b ↔ c < f.blocks.length ∧ b ∈ f.succs c := by
  unfold Func.preds
  rw [List.mem_flatMap]
  constructor
  · rintro ⟨d, hd, hmem⟩
    obtain ⟨s, hs, rfl⟩ := List.mem_map.mp hmem
    obtain ⟨hmem, heq⟩ := List.mem_filter.mp hs
    exact ⟨List.mem_range.mp hd, of_decide_eq_true heq ▸ hmem⟩
  · rintro ⟨hlt, hsucc⟩
    exact ⟨c, List.mem_range.mpr hlt, List.mem_map.mpr
      ⟨b, List.mem_filter.mpr ⟨hsucc, decide_eq_true rfl⟩, rfl⟩⟩

theorem cutParam_block (hb : b < g.blocks.length) (c : BlockId) :
    (cutParam drop g (g.preds b) b k).block c =
      let block := if c = b then drop (g.block c) else g.block c
      if c ∈ g.preds b then { block with term := mapArgs b (·.eraseIdx k) block.term }
      else block := by
  unfold cutParam Func.block
  simp only [List.getD_eq_getElem?_getD, List.getElem?_mapIdx]
  cases hc : g.blocks[c]? with
  | some block => rfl
  | none =>
      have hge : g.blocks.length ≤ c := List.getElem?_eq_none_iff.mp hc
      have hne : ¬ c = b := fun heq => absurd hb (Nat.not_lt.mpr (heq ▸ hge))
      have hpred : c ∉ g.preds b := fun h => absurd (mem_preds_iff.mp h).1 (Nat.not_lt.mpr hge)
      simp only [Option.map_none, Option.getD_none, if_neg hne, if_neg hpred]

theorem cutParam_params (hd : Drops drop k) (hb : b < g.blocks.length) (c : BlockId) :
    ((cutParam drop g (g.preds b) b k).block c).params =
      if c = b then (g.block c).params.eraseIdx k else (g.block c).params := by
  rw [cutParam_block hb]
  simp only
  split <;> split <;> first | rfl | exact hd.params _

theorem cutParam_insts (hd : Drops drop k) (hb : b < g.blocks.length) (c : BlockId) :
    ((cutParam drop g (g.preds b) b k).block c).insts = (g.block c).insts := by
  rw [cutParam_block hb]
  simp only
  split <;> split <;> first | rfl | exact hd.insts _

theorem cutParam_term (hd : Drops drop k) (hb : b < g.blocks.length) (c : BlockId) :
    ((cutParam drop g (g.preds b) b k).block c).term =
      if c ∈ g.preds b then mapArgs b (·.eraseIdx k) (g.block c).term else (g.block c).term := by
  rw [cutParam_block hb]
  simp only
  split <;> split <;> simp only [hd.term]

/-- A block that has a parameter is one of the function. -/
theorem lt_of_param (hp : p ∈ (f.block b).params) : b < f.blocks.length := by
  by_contra hge
  rw [Func.block_of_le (Nat.le_of_not_lt hge)] at hp
  exact absurd hp List.not_mem_nil

/-- The edges still pass enough. -/
theorem fed_cutParam (hd : Drops drop k) (hk : (g.block b).params[k]? = some p) (h : g.Fed) :
    (cutParam drop g (g.preds b) b k).Fed := by
  have hb : b < g.blocks.length := lt_of_param (List.mem_of_getElem? hk)
  have hlt : k < (g.block b).params.length := (List.getElem?_eq_some_iff.mp hk).1
  rw [Func.fed_iff] at h ⊢
  intro c e he
  rw [cutParam_term hd hb] at he
  rw [cutParam_params hd hb]
  split at he
  · rw [mapArgs_eq, edges_mapEdges, List.mem_map] at he
    obtain ⟨e', he', rfl⟩ := he
    have hold := h c e' he'
    simp only
    split
    · next heq =>
        rw [heq] at hold ⊢
        rw [List.length_eraseIdx_of_lt hlt, List.length_eraseIdx_of_lt (Nat.lt_of_lt_of_le hlt hold)]
        exact Nat.sub_le_sub_right hold 1
    · exact hold
  · have hold := h c e he
    split
    · exact Nat.le_trans (List.length_eraseIdx_le _ _) hold
    · exact hold

theorem Cut.refl (hfits : ∀ b, f.Reachable b → ∀ e ∈ (f.block b).term.edges, f.Fits e) :
    Cut f f [] where
  entry := rfl
  count := rfl
  insts := rfl
  values := rfl
  frames := rfl
  paramClasses := rfl
  succs _ := rfl
  code _ := rfl
  params _ := (List.filter_eq_self.mpr fun _ _ => decide_eq_true List.not_mem_nil).symm
  term b hr := (mapEdges_self fun e he => keepArgs_nil (hfits b hr e he).1.symm).symm
  fed := id

/-- Removing one more parameter. -/
theorem Cut.remove (h : Cut f g gone) (hd : Drops drop k) (hs : f.Ssa)
    (hfits : ∀ b, f.Reachable b → ∀ e ∈ (f.block b).term.edges, f.Fits e)
    (hk : (g.block b).params[k]? = some p) :
    Cut f (cutParam drop g (g.preds b) b k) (p :: gone) := by
  have hkept := h.params b ▸ hk
  have hp : p ∈ (f.block b).params := (List.mem_filter.mp (List.mem_of_getElem? hkept)).1
  have hb : b < g.blocks.length := h.count ▸ lt_of_param hp
  have helse : ∀ c, c ≠ b → p ∉ (f.block c).params := fun c hne hc =>
    hne (hs.unique (.param hc) (.param hp)).1
  refine ⟨h.entry, ?_, h.insts, h.values, h.frames, h.paramClasses, fun c => ?_,
    fun c => ?_, fun c => ?_, fun c hr => ?_, fun hfed => fed_cutParam hd hk (h.fed hfed)⟩
  · rw [cutParam, List.length_mapIdx]
    exact h.count
  · rw [← h.succs c, Func.succs, cutParam_term hd hb, Func.succs]
    split
    · exact successors_mapArgs _ _ _
    · rfl
  · rw [cutParam_insts hd hb]
    exact h.code c
  · rw [cutParam_params hd hb, h.params c]
    split
    · next hc =>
        subst hc
        have hnodup : (((f.block c).params.filter (· ∉ gone)).map id).Nodup := by
          rw [List.map_id]
          exact (hs.params c).filter _
        rw [eraseIdx_eq_filter id hnodup (by rwa [List.map_id])]
        exact filter_cons_gone id _ gone p
    · next hc =>
        have hcons : ((f.block c).params.filter (· ∉ gone)).filter (· ≠ p) =
            (f.block c).params.filter (· ∉ p :: gone) := filter_cons_gone id _ gone p
        rw [← hcons]
        refine (List.filter_eq_self.mpr fun v hmem => ?_).symm
        have hne : v ≠ p := fun heq => helse c hc (heq ▸ (List.mem_filter.mp hmem).1)
        simpa using hne
  · rw [cutParam_term hd hb, h.term c hr]
    have hedge : ∀ e ∈ (f.block c).term.edges,
        (if e.1 = b then (keepArgs gone (f.block e.1).params e.2).eraseIdx k
          else keepArgs gone (f.block e.1).params e.2) =
        keepArgs (p :: gone) (f.block e.1).params e.2 := by
      intro e he
      split
      · next heq =>
          rw [heq]
          exact keepArgs_erase (hs.params b) (heq ▸ (hfits c hr e he).1.symm) hkept
      · next hne => exact (keepArgs_other (helse _ hne)).symm
    split
    · rw [mapArgs_eq, mapEdges_mapEdges]
      exact mapEdges_congr hedge
    · next hpred =>
        refine mapEdges_congr fun e he => ?_
        have hne : e.1 ≠ b := by
          intro heq
          have hsucc := Func.mem_edges_succs he
          refine hpred (mem_preds_iff.mpr ⟨?_, ?_⟩)
          · rw [h.count]
            by_contra hge
            rw [Func.Edge, Func.succs, Func.block_of_le (Nat.le_of_not_lt hge)] at hsucc
            exact absurd hsucc List.not_mem_nil
          · rw [h.succs c]
            exact heq ▸ hsucc
        have h := hedge e he
        rwa [if_neg hne] at h

theorem Cut.preds_eq (h : Cut f g gone) (b : BlockId) :
    g.preds b = f.preds b := by
  unfold Func.preds
  rw [h.count]
  exact List.flatMap_congr fun c _ => by rw [h.succs c]

end Remove

theorem keepArgs_zip (gone : List ValueId) (R : ValueId → ValueId) {params args : List ValueId}
    (hlength : params.length = args.length) {x : ValueId × ValueId}
    (hx : x ∈ ((keepArgs gone params args).map R).zip (params.filter (· ∉ gone))) :
    ∃ a, x.1 = R a ∧ (x.2, a) ∈ params.zip args := by
  rw [← map_fst_zip_filter gone (Nat.le_of_eq hlength), keepArgs, List.map_map, List.zip_map',
    List.mem_map] at hx
  obtain ⟨e, he, rfl⟩ := hx
  exact ⟨e.2, rfl, (List.mem_filter.mp he).1⟩

theorem keepArgs_subset (gone params args : List ValueId) : keepArgs gone params args ⊆ args := by
  intro a ha
  obtain ⟨e, he, rfl⟩ := List.mem_map.mp ha
  exact (List.of_mem_zip (List.mem_filter.mp he).1).2

theorem uses_mapEdges {h : BlockId → List ValueId → List ValueId}
    (hsub : ∀ c args, h c args ⊆ args) (t : Terminator) : (mapEdges h t).uses ⊆ t.uses := by
  cases t with
  | jump target args => exact hsub target args
  | branch cond tb ta eb ea =>
      intro v hv
      rcases List.mem_cons.mp hv with rfl | hv
      · exact List.mem_cons_self
      · refine List.mem_cons_of_mem _ (List.mem_append.mpr ?_)
        rcases List.mem_append.mp hv with hv | hv
        · exact .inl (hsub tb ta hv)
        · exact .inr (hsub eb ea hv)
  | _ => exact fun _ hv => hv

end Zuri.Jit.Ir
