import Zuri.Jit.Ir.Checked
import Zuri.Jit.Ir.Passes.Thread
import Zuri.Jit.Ir.Typing

/-!
What is known about integers without running anything: the range an operation's result must
fall in, and the comparisons and checks such ranges decide.
-/

namespace Zuri.Jit.Ir.Ints

/-- The largest magnitude up to which a double counts every integer. -/
def exact : Int := 2 ^ 53

/-- The bounds of what an operation gives, whatever its operands. -/
def baseRange : Op → Option (Int × Int)
  | .constI64 c => some (c.toInt, c.toInt)
  | .bytesLoad | .strByte => some (0, 255)
  | .listLen | .bytesLen | .strByteLen | .strLength | .objLength => some (0, exact)
  | .guard (.arith _) => some (-exact, exact - 1)
  | .iBit .ushr => some (0, 2 ^ 32 - 1)
  | _ => none

/-- A shift keeping the sign moves towards zero, or towards -1 from below it. -/
def shrRange (r : Int × Int) : Int × Int := (min r.1 0, max r.2 0)

def nonneg (r : Int × Int) : Bool := decide (0 ≤ r.1)

/-- Anding with something never negative keeps no more than its bits. -/
def andRange : Option (Int × Int) → Option (Int × Int) → Option (Int × Int)
  | some a, some b => some (0, min a.2 b.2)
  | some r, none | none, some r => some (0, r.2)
  | none, none => none

def rangeAt (f : Func) : Nat → ValueId → Option (Int × Int)
  | 0, v => (f.defInst v).bind fun inst => baseRange inst.op
  | depth + 1, v => (f.defInst v).bind fun inst =>
      match inst.op with
      | .iBit .shr => (rangeAt f depth (inst.args.getD 0 0)).map shrRange
      | .iBit .and =>
          andRange ((rangeAt f depth (inst.args.getD 0 0)).filter nonneg)
            ((rangeAt f depth (inst.args.getD 1 0)).filter nonneg)
      | op => baseRange op

/-- The bounds an integer is known to lie within, from what defines it. -/
def range (f : Func) (v : ValueId) : Option (Int × Int) := rangeAt f 4 v

/-- The answer to a comparison of integers, when their ranges leave only one. -/
def decided (f : Func) (cmp : Cmp) (x y : ValueId) : Option Bool :=
  (range f x).bind fun a => (range f y).bind fun b =>
    match cmp with
    | .lt => if a.2 < b.1 then some true else if b.2 ≤ a.1 then some false else none
    | .le => if a.2 ≤ b.1 then some true else if b.2 < a.1 then some false else none
    | .gt => if b.2 < a.1 then some true else if a.2 ≤ b.1 then some false else none
    | .ge => if b.2 ≤ a.1 then some true else if a.2 < b.1 then some false else none
    | .eq => if a.2 < b.1 ∨ b.2 < a.1 then some false else none
    | .ne => if a.2 < b.1 ∨ b.2 < a.1 then some true else none

/-- What a comparison becomes when its answer is known. -/
def folded (f : Func) (inst : Inst) : Op :=
  match inst.op with
  | .iCmp cmp =>
      match decided f cmp (inst.args.getD 0 0) (inst.args.getD 1 0) with
      | some answer => .constBool answer
      | none => inst.op
  | op => op

/-- A check of a constant `true`, which is deleted. -/
def alwaysPasses (f : Func) (inst : Inst) : Bool :=
  inst.op = .guard .true &&
    (f.defInst (inst.args.getD 0 0)).any fun d => folded f d = .constBool true

section Operations

variable {M : Machine} {x y : BitVec 64} {r : Int × Int}

def Within (r : Int × Int) (x : BitVec 64) : Prop := r.1 ≤ x.toInt ∧ x.toInt ≤ r.2

/-- Nothing in memory is longer than a double can count. -/
structure Sized (w : World M.Rest) : Prop where
  header : ∀ r, (w.header r).len ≤ 2 ^ 53
  dict : ∀ r, (w.dicts r).length ≤ 2 ^ 53
  text : ∀ r, (M.text r).length ≤ 2 ^ 53

/-- A value that has a length. -/
def HasLength : Value → Prop
  | .obj r => r.kind = .list ∨ r.kind = .bytes ∨ r.kind = .str ∨ r.kind = .dict
  | _ => False

theorem toInt_ofNat {n : Nat} (h : n < 2 ^ 63) : (BitVec.ofNat 64 n).toInt = n := by
  rw [BitVec.toInt_eq_toNat_cond, BitVec.toNat_ofNat, Nat.mod_eq_of_lt (by omega)]
  rw [if_pos (by omega)]

theorem within_length {n : Nat} (h : n ≤ 2 ^ 53) : Within (0, exact) (BitVec.ofNat 64 n) := by
  rw [Within, toInt_ofNat (by omega), exact]
  omega

theorem within_byte (b : BitVec 8) : Within (0, 255) (b.zeroExtend 64) := by
  have hb := b.isLt
  have hnat : (b.zeroExtend 64).toNat = b.toNat := by
    rw [BitVec.toNat_setWidth, Nat.mod_eq_of_lt (by omega)]
  rw [Within, BitVec.toInt_eq_toNat_cond, hnat, if_pos (by omega)]
  omega

theorem within_ushr (x y : BitVec 64) : Within (0, 2 ^ 32 - 1) (BitOp.ushr.apply x y) := by
  have hnat : (BitOp.ushr.apply x y).toNat < 2 ^ 32 := by
    simp only [BitOp.apply]
    split
    · decide
    · rw [BitVec.toNat_ushiftRight, BitVec.toNat_and, Nat.shiftRight_eq_div_pow]
      have hmask : x.toNat &&& (0xffffffff#64).toNat ≤ (0xffffffff#64).toNat := Nat.and_le_right
      have hdiv := Nat.div_le_self (x.toNat &&& (0xffffffff#64).toNat) (2 ^ (y.toNat % 2 ^ 32))
      have hval : (0xffffffff#64).toNat = 2 ^ 32 - 1 := by decide
      omega
  rw [Within, BitVec.toInt_eq_toNat_cond, if_pos (by omega)]
  omega

theorem within_shr (h : Within r x) (y : BitVec 64) :
    Within (shrRange r) (BitOp.shr.apply x y) := by
  simp only [BitOp.apply]
  unfold Within shrRange at *
  split
  · have hzero : (0 : BitVec 64).toInt = 0 := rfl
    simp only [hzero]
    omega
  · rw [BitVec.toInt_sshiftRight]
    by_cases hneg : x.toInt ≤ 0
    · have hlow := @Int.le_shiftRight_of_nonpos x.toInt (y.toNat % 2 ^ 32) hneg
      have hhigh := @Int.shiftRight_le_of_nonpos x.toInt (y.toNat % 2 ^ 32) hneg
      simp only
      omega
    · have hlow := @Int.le_shiftRight_of_nonneg x.toInt (y.toNat % 2 ^ 32) (by omega)
      have hhigh := @Int.shiftRight_le_of_nonneg x.toInt (y.toNat % 2 ^ 32) (by omega)
      simp only
      omega

theorem within_and (hx : Within r x) (hpos : 0 ≤ r.1) (y : BitVec 64) :
    Within (0, r.2) (x &&& y) ∧ Within (0, r.2) (y &&& x) := by
  have hbound : (x &&& y).toNat ≤ x.toNat := by
    rw [BitVec.toNat_and]
    exact Nat.and_le_left
  have hcond := BitVec.toInt_eq_toNat_cond x
  have hand := BitVec.toInt_eq_toNat_cond (x &&& y)
  have hlt := x.isLt
  rw [BitVec.and_comm y x]
  unfold Within at *
  simp only
  split at hcond <;> split at hand <;> omega

theorem within_arith {op : IntOp} {z : BitVec 64} (h : op.checked x y = some z) :
    Within (-exact, exact - 1) z := by
  obtain ⟨⟨hlow, hhigh, -⟩, hval⟩ := (checked_eq_some op).mp h
  rw [Within, exact, hval]
  omega

/-- The value a length is read from, where what it is decides whether it has one. -/
theorem within_objLength {w : World M.Rest} (hsized : Sized w) {v : Value} (h : HasLength v) :
    Within (0, exact) (Op.lengthOf w v) := by
  cases v with
  | obj r =>
      have htext : codepoints (M.text r) ≤ 2 ^ 53 :=
        Nat.le_trans List.countP_le_length (hsized.text r)
      rw [Op.lengthOf]
      obtain hk | hk | hk | hk := h
      · rw [hk]
        exact within_length (hsized.header r)
      · rw [hk]
        exact within_length (hsized.header r)
      · rw [hk]
        exact within_length htext
      · rw [hk]
        exact within_length (hsized.dict r)
  | _ => cases h

/-- Nothing else has a length: what is read is -1. -/
theorem lengthOf_none {w : World M.Rest} {v : Value} (h : ¬HasLength v) :
    Op.lengthOf w v = BitVec.ofInt 64 (-1) := by
  cases v with
  | obj r =>
      rw [HasLength, not_or, not_or, not_or] at h
      obtain ⟨hlist, hbytes, hstr, hdict⟩ := h
      rw [Op.lengthOf]
      split
      · rename_i hk
        exact absurd hk hlist
      · rename_i hk
        exact absurd hk hbytes
      · rename_i hk
        exact absurd hk hstr
      · rename_i hk
        exact absurd hk hdict
      · rfl
  | _ => rfl

/-- What an operation gives lies within the bounds it has whatever its operands are. -/
theorem eval_within {f : Func} {w w' : World M.Rest} {regs : List (Nat × Value)}
    {args : List Val} {op : Op} {v : Option Val} (hsized : Sized w)
    (hlength : op = .objLength → HasLength (args.getD 0 (.bool false)).taggedOf)
    (hrange : baseRange op = some r) (h : op.eval f w regs args = .next v w') :
    ∃ z, v = some (.i64 z) ∧ Within r z := by
  have hread : ∀ {z : BitVec 64}, Answer.next (some (.i64 z)) w = .next v w' → Within r z →
      ∃ z, v = some (.i64 z) ∧ Within r z := by
    intro z hnext hz
    cases hnext
    exact ⟨z, rfl, hz⟩
  cases op with
  | constI64 c =>
      cases hrange
      exact hread h ⟨Int.le_refl _, Int.le_refl _⟩
  | bytesLoad =>
      cases hrange
      exact hread h (within_byte _)
  | strByte =>
      cases hrange
      exact hread h (within_byte _)
  | listLen =>
      cases hrange
      exact hread h (within_length (hsized.header _))
  | bytesLen =>
      cases hrange
      exact hread h (within_length (hsized.header _))
  | strByteLen =>
      cases hrange
      exact hread h (within_length (hsized.text _))
  | strLength =>
      cases hrange
      exact hread h (within_length (Nat.le_trans List.countP_le_length (hsized.text _)))
  | objLength =>
      cases hrange
      exact hread h (within_objLength hsized (hlength rfl))
  | guard kind =>
      cases kind with
      | arith op =>
          cases hrange
          rw [Op.eval_guard] at h
          split at h
          · rename_i r hcheck
            cases h
            obtain ⟨z, hz, rfl⟩ := Option.map_eq_some_iff.mp hcheck
            exact ⟨z, rfl, within_arith hz⟩
          · cases h
      | _ => cases hrange
  | iBit bit =>
      cases bit with
      | ushr =>
          cases hrange
          exact hread h (within_ushr _ _)
      | _ => cases hrange
  | _ => cases hrange

end Operations

section Runs

variable {M : Machine} {f : Func} {w₀ : World M.Rest} {b c : BlockId} {j : Nat} {env : Env}
  {w : World M.Rest} {v : ValueId} {r : Int × Int}

theorem defInst_param (hs : f.Ssa) (hv : v ∈ (f.block b).params) : f.defInst v = none := by
  obtain ⟨ty, k, hdata⟩ := hs.param b v hv
  rw [Func.defInst, List.getD_eq_getElem?_getD, hdata]
  rfl

/-- A parameter has no operation and so no range. -/
theorem rangeAt_param (hs : f.Ssa) (hv : v ∈ (f.block b).params) (depth : Nat) :
    rangeAt f depth v = none := by
  have hdef := defInst_param hs hv
  cases depth <;> rw [rangeAt, hdef] <;> rfl

theorem defInst_eq (hs : f.Ssa) {inst : Inst} (hj : (f.code b)[j]? = some inst)
    (hr : inst.result = some v) : f.defInst v = some inst := by
  rw [Func.code, List.getElem?_map, Option.map_eq_some_iff] at hj
  obtain ⟨id, hid, rfl⟩ := hj
  obtain ⟨ty, hdata⟩ := hs.inst b id (List.mem_of_getElem? hid) v hr
  rw [Func.defInst, List.getD_eq_getElem?_getD, hdata]
  rfl

/-- What is in scope where a run begins is a parameter of the entry. -/
theorem param_of_start (h : f.InScope v f.entry 0) : v ∈ (f.block f.entry).params := by
  obtain ⟨d, i, hdef, ⟨rfl, hi⟩ | ⟨hne, hdom⟩⟩ := h
  · obtain ⟨-, ⟨-, hp⟩ | ⟨k, inst, rfl, -⟩⟩ := Func.mem_blockDefs.mp hdef
    · exact hp
    · omega
  · exact absurd (Graph.Dom.eq_root hdom) hne

/-- What is in scope past an instruction is its result or was in scope before. -/
theorem inScope_succ {inst : Inst} (hj : (f.code b)[j]? = some inst)
    (h : f.InScope v b (j + 1)) (hr : inst.result ≠ some v) : f.InScope v b j := by
  obtain ⟨d, i, hdef, ⟨rfl, hi⟩ | hdom⟩ := h
  · by_cases hlast : i = j + 1
    · subst hlast
      obtain ⟨-, ⟨hzero, -⟩ | ⟨k, inst', hk, hat, hres⟩⟩ := Func.mem_blockDefs.mp hdef
      · omega
      · have hkj : k = j := by omega
        subst hkj
        rw [hj] at hat
        cases hat
        exact absurd hres hr
    · exact ⟨d, i, hdef, .inl ⟨rfl, by omega⟩⟩
  · exact ⟨d, i, hdef, .inr hdom⟩

/-- What is in scope where a block is entered is its parameter or was in scope at the end of
the block before. -/
theorem inScope_edge (h : f.InScope v c 0) (hedge : f.Edge b c) (hp : v ∉ (f.block c).params) :
    f.InScope v b (f.code b).length := by
  obtain ⟨d, i, hdef, ⟨rfl, hi⟩ | ⟨hne, hdom⟩⟩ := h
  · obtain ⟨-, ⟨-, hparam⟩ | ⟨k, inst, rfl, -⟩⟩ := Func.mem_blockDefs.mp hdef
    · exact absurd hparam hp
    · omega
  · have hdomb : f.Dom d b := Graph.Dom.pred hdom hedge hne
    by_cases hdb : d = b
    · subst hdb
      refine ⟨d, i, hdef, .inl ⟨rfl, ?_⟩⟩
      obtain ⟨-, ⟨rfl, -⟩ | ⟨k, inst, rfl, hk, -⟩⟩ := Func.mem_blockDefs.mp hdef
      · exact Nat.zero_le _
      · exact (List.getElem?_eq_some_iff.mp hk).1
    · exact ⟨d, i, hdef, .inr ⟨hdb, hdomb⟩⟩

/-- At a moment of a run every integer in scope is within its range. -/
def WithinAll (f : Func) (b : BlockId) (j : Nat) (env : Env) : Prop :=
  ∀ depth v r, f.InScope v b j → rangeAt f depth v = some r → Within r (env v).asI64

/-- The object an instruction that asks for any length is run on has one. -/
def Measures (inst : Inst) (env : Env) : Prop :=
  inst.op = .objLength → HasLength (env (inst.args.getD 0 0)).taggedOf

variable (env) in
theorem args_getD {inst : Inst} {k : Nat} {x : ValueId} (h : inst.args[k]? = some x) :
    (inst.args.map env).getD k (.bool false) = env x ∧ inst.args.getD k 0 = x := by
  rw [List.getD_eq_getElem?_getD, List.getElem?_map, h, List.getD_eq_getElem?_getD, h]
  exact ⟨rfl, rfl⟩

variable (env) in
/-- An instruction's integer operands are in scope where it is run. -/
theorem operand (hv : f.Valid) (ht : f.Typed) (hr : f.Reachable b) {inst : Inst}
    (hj : (f.code b)[j]? = some inst) {k : Nat} {t : Ty} (hk : inst.op.argTys[k]? = some (some t)) :
    (inst.args.map env).getD k (.bool false) = env (inst.args.getD k 0) ∧
      f.InScope (inst.args.getD k 0) b j := by
  obtain ⟨x, hx, -⟩ := (ht b inst (List.mem_of_getElem? hj)).args k t hk
  obtain ⟨hval, hget⟩ := args_getD env hx
  rw [hget]
  exact ⟨hval, hv.uses b hr j inst hj x (List.mem_append_left _ (List.mem_of_getElem? hx))⟩

/-- One instruction puts its result within its range. -/
theorem result_within (hs : f.Ssa) (hv : f.Valid) (ht : f.Typed) (hr : f.Reachable b)
    {inst : Inst} {w' : World M.Rest} {val : Option Val} (hj : (f.code b)[j]? = some inst)
    (hres : inst.result = some v) (hsized : Sized w) (hmeasures : Measures inst env)
    (hall : WithinAll f b j env)
    (heval : inst.op.eval f w (inst.regs env) (inst.args.map env) = .next val w')
    {depth : Nat} (hrange : rangeAt f depth v = some r) :
    Within r (env.define inst.result val v).asI64 := by
  have hdefined : ∀ {z}, val = some (.i64 z) → Within r z →
      Within r (env.define inst.result val v).asI64 := by
    rintro z rfl hz
    rw [hres]
    simp only [Env.define, Function.update_self]
    exact hz
  have hbase : baseRange inst.op = some r → Within r (env.define inst.result val v).asI64 := by
    intro hbase
    have hlength : inst.op = .objLength →
        HasLength ((inst.args.map env).getD 0 (.bool false)).taggedOf := by
      intro hop
      rw [(operand env hv ht hr hj (k := 0) (t := .tagged) (by rw [hop]; rfl)).1]
      exact hmeasures hop
    obtain ⟨z, hz, hwithin⟩ := eval_within hsized hlength hbase heval
    exact hdefined hz hwithin
  have hdef := defInst_eq hs hj hres
  cases depth with
  | zero =>
      rw [rangeAt, hdef] at hrange
      exact hbase hrange
  | succ depth =>
      rw [rangeAt, hdef, Option.bind_some] at hrange
      cases hop : inst.op with
      | iBit bit =>
          rw [hop] at hrange
          obtain ⟨hx, hxscope⟩ := operand env hv ht hr hj (k := 0) (t := .i64)
            (by rw [hop]; rfl)
          obtain ⟨hy, hyscope⟩ := operand env hv ht hr hj (k := 1) (t := .i64)
            (by rw [hop]; rfl)
          have hval : val = some (.i64 (bit.apply (env (inst.args.getD 0 0)).asI64
              (env (inst.args.getD 1 0)).asI64)) := by
            rw [hop] at heval
            rw [← hx, ← hy]
            cases heval
            rfl
          cases bit with
          | shr =>
              obtain ⟨inner, hinner, rfl⟩ := Option.map_eq_some_iff.mp hrange
              exact hdefined hval (within_shr (hall _ _ _ hxscope hinner) _)
          | and =>
              have hfirst : ∀ {a}, (rangeAt f depth (inst.args.getD 0 0)).filter nonneg = some a →
                  Within (0, a.2) ((env (inst.args.getD 0 0)).asI64 &&&
                    (env (inst.args.getD 1 0)).asI64) := by
                intro a ha
                obtain ⟨hat, hpos⟩ := Option.filter_eq_some_iff.mp ha
                exact (within_and (hall _ _ _ hxscope hat) (of_decide_eq_true hpos) _).1
              have hsecond : ∀ {a}, (rangeAt f depth (inst.args.getD 1 0)).filter nonneg = some a →
                  Within (0, a.2) ((env (inst.args.getD 0 0)).asI64 &&&
                    (env (inst.args.getD 1 0)).asI64) := by
                intro a ha
                obtain ⟨hat, hpos⟩ := Option.filter_eq_some_iff.mp ha
                exact (within_and (hall _ _ _ hyscope hat) (of_decide_eq_true hpos) _).2
              refine hdefined hval ?_
              simp only at hrange
              cases ha : (rangeAt f depth (inst.args.getD 0 0)).filter nonneg with
              | none =>
                  cases hb : (rangeAt f depth (inst.args.getD 1 0)).filter nonneg with
                  | none =>
                      rw [ha, hb] at hrange
                      cases hrange
                  | some q =>
                      rw [ha, hb] at hrange
                      cases hrange
                      exact hsecond hb
              | some p =>
                  cases hb : (rangeAt f depth (inst.args.getD 1 0)).filter nonneg with
                  | none =>
                      rw [ha, hb] at hrange
                      cases hrange
                      exact hfirst ha
                  | some q =>
                      rw [ha, hb] at hrange
                      cases hrange
                      have hp := hfirst ha
                      have hq := hsecond hb
                      exact ⟨hp.1, le_min hp.2 hq.2⟩
          | or => exact hbase (by rw [hop]; exact hrange)
          | xor => exact hbase (by rw [hop]; exact hrange)
          | shl => exact hbase (by rw [hop]; exact hrange)
          | ushr => exact hbase (by rw [hop]; exact hrange)
      | _ =>
          rw [hop] at hrange
          exact hbase (by rw [hop]; exact hrange)

/-- In a run whose lengths are all of values that have one, every integer in scope is within
its range. -/
theorem at_within (hs : f.Ssa) (hv : f.Valid) (ht : f.Typed)
    (hsized : ∀ b j env (w : World M.Rest), At f w₀ b j env w → Sized w)
    (hmeasures : ∀ b j env (w : World M.Rest) inst, At f w₀ b j env w →
      (f.code b)[j]? = some inst → Measures inst env)
    (h : At f w₀ b j env w) : WithinAll f b j env := by
  induction h with
  | start =>
      intro depth v r hscope hrange
      rw [rangeAt_param hs (param_of_start hscope)] at hrange
      cases hrange
  | @inst b j env env' w w' inst seen hat hj hrun ih =>
      obtain ⟨val, heval, rfl, -⟩ := Inst.run_on hrun
      intro depth v r hscope hrange
      by_cases hres : inst.result = some v
      · exact result_within hs hv ht hat.reachable hj hres (hsized _ _ _ _ hat)
          (hmeasures _ _ _ _ _ hat hj) ih heval hrange
      · rw [Env.define_of_ne env val hres]
        exact ih depth v r (inScope_succ hj hscope hres) hrange
  | @edge b c env env' w w' seen hat hrun ih =>
      obtain ⟨args, he, rfl, rfl⟩ := Terminator.run_on hrun
      intro depth v r hscope hrange
      by_cases hparam : v ∈ (f.block c).params
      · rw [rangeAt_param hs hparam] at hrange
        cases hrange
      · rw [Env.enter_of_not_mem _ _ _ hparam]
        exact ih depth v r (inScope_edge hscope (Func.mem_edges_succs he) hparam) hrange

end Runs

end Zuri.Jit.Ir.Ints
