import Zuri.Vm.Instr

/-!
The registers a position needs: a register is needed where some path reads it before writing
it, a path on which an instruction that raises has not written its destination included. Two
frames that the needed registers and those with open upvalues do not tell apart do the same.
-/

namespace Zuri.Vm

variable {V W : Type} {f : ObjFunction}

inductive Needed (f : ObjFunction) (r : Nat) : Nat → Prop
  | read {ip : Nat} {i : Instr} : f.code[ip]? = some i → r ∈ i.reads f → Needed f r ip
  | passes {ip s : Nat} {i : Instr} : f.code[ip]? = some i → s ∈ directSuccessors ip i f →
      i.anyDst ≠ some r → Needed f r s → Needed f r ip
  | caught {ip s : Nat} {i : Instr} : f.code[ip]? = some i → i.mayRaise = true →
      f.catchResume ip = some s → Needed f r s → Needed f r ip

theorem Needed.lt {r ip : Nat} (h : Needed f r ip) : ip < f.code.length := by
  cases h with
  | read hi _ => exact (List.getElem?_eq_some_iff.mp hi).1
  | passes hi _ _ _ => exact (List.getElem?_eq_some_iff.mp hi).1
  | caught hi _ _ _ => exact (List.getElem?_eq_some_iff.mp hi).1

/-- An instruction at `ip` leaves the handlers that stand there, each given as where it
resumes. Where it can raise, the innermost one is the one that `catchResume` says. -/
def Leaves (f : ObjFunction) (standing : Nat → List Nat) (ip : Nat) (i : Instr) : Prop :=
  (∀ s ∈ directSuccessors ip i f, standing s = standing ip) ∧
    (i.mayRaise = true → ∀ resume ∈ (standing ip).head?,
      f.catchResume ip = some resume ∧ standing resume = (standing ip).tail)

/-- The handlers that stand before an instruction against those that stand after it. -/
def Nests (f : ObjFunction) (standing : Nat → List Nat) (ip : Nat) : Instr → Prop
  | .pushCatch _ offset => standing (ip + 1) = asUsize (ip + 1 + offset) :: standing ip
  | .popCatch => standing (ip + 1) = (standing ip).tail
  | i => Leaves f standing ip i

instance (standing : Nat → List Nat) (ip : Nat) (i : Instr) :
    Decidable (Leaves f standing ip i) :=
  inferInstanceAs (Decidable (_ ∧ _))

instance (standing : Nat → List Nat) (ip : Nat) (i : Instr) :
    Decidable (Nests f standing ip i) := by
  cases i with
  | pushCatch varReg offset =>
      exact inferInstanceAs
        (Decidable (standing (ip + 1) = asUsize (ip + 1 + offset) :: standing ip))
  | popCatch => exact inferInstanceAs (Decidable (standing (ip + 1) = (standing ip).tail))
  | _ => exact inferInstanceAs (Decidable (Leaves f standing ip _))

/-- What the compiler sees to: `catch` bodies nest, and every register that an instruction
reads is one of the function's. -/
structure Compiled (f : ObjFunction) (standing : Nat → List Nat) : Prop where
  nests : ∀ ip i, f.code[ip]? = some i → Nests f standing ip i
  named : ∀ i ∈ f.code, ∀ r ∈ i.reads f, r < f.numRegisters
  registers : f.numRegisters ≤ 255

/-- Two frames at one place that nothing needed tells apart. -/
structure Agree (m : Machine f V W) (needed : Nat → Prop) (a b : Frame V) (w : W) : Prop where
  ip : a.ip = b.ip
  catches : a.catches = b.catches
  regs : ∀ r, needed r ∨ m.openUpvalue w r → a.regs r = b.regs r

/-- Frames that go on together, or end alike. -/
inductive Together (m : Machine f V W) (standing : Nat → List Nat) : Next V W → Next V W → Prop
  | goes {a b : Frame V} {w : W} : Agree m (Needed f · a.ip) a b w →
      a.catches.map Prod.snd = standing a.ip → Together m standing (.goes a w) (.goes b w)
  | returns (v : V) (w : W) : Together m standing (.returns v w) (.returns v w)
  | escapes (error : V) (w : W) : Together m standing (.escapes error w) (.escapes error w)
  | diverges : Together m standing .diverges .diverges

namespace Agree

variable {m : Machine f V W} {needed after : Nat → Prop} {a b : Frame V} {w w' : W}

theorem setReg (h : Agree m needed a b w) (d : Nat) (v : V)
    (hneeded : ∀ r, after r → r ≠ d → needed r) :
    Agree m after (a.setReg d v) (b.setReg d v) w where
  ip := h.ip
  catches := h.catches
  regs := by
    intro r hr
    simp only [Frame.setReg]
    by_cases heq : r = d
    · rw [heq, Function.update_self, Function.update_self]
    · rw [Function.update_of_ne heq, Function.update_of_ne heq]
      exact h.regs r (hr.imp_left fun hafter => hneeded r hafter heq)

theorem overlay (h : Agree m needed a b w) (writes : Nat → Option V)
    (hregs : ∀ r, writes r = none → after r ∨ m.openUpvalue w' r →
      needed r ∨ m.openUpvalue w r) :
    Agree m after (a.overlay writes) (b.overlay writes) w' where
  ip := h.ip
  catches := h.catches
  regs := by
    intro r hr
    simp only [Frame.overlay]
    cases hwritten : writes r with
    | some v => rfl
    | none => exact h.regs r (hregs r hwritten hr)

theorem weaken (h : Agree m needed a b w) (hneeded : ∀ r, after r → needed r) :
    Agree m after a b w :=
  ⟨h.ip, h.catches, fun r hr => h.regs r (hr.imp_left (hneeded r))⟩

theorem at_ (h : Agree m needed a b w) (ip : Nat) :
    Agree m needed { a with ip := ip } { b with ip := ip } w :=
  ⟨rfl, h.catches, h.regs⟩

theorem withCatches (h : Agree m needed a b w) (catches : List (Option Nat × Nat)) :
    Agree m needed { a with catches := catches } { b with catches := catches } w :=
  ⟨h.ip, rfl, h.regs⟩

end Agree

section Together

variable {m : Machine f V W} {standing : Nat → List Nat} {ip : Nat} {i : Instr}
  {a b : Frame V} {w : W}

theorem Together.next (hkept : ∀ s ∈ directSuccessors ip i f, standing s = standing ip)
    (hs : a.ip ∈ directSuccessors ip i f) (hcatches : a.catches.map Prod.snd = standing ip)
    (h : Agree m (Needed f · a.ip) a b w) : Together m standing (.goes a w) (.goes b w) :=
  .goes h (hcatches.trans (hkept _ hs).symm)

theorem Needed.jumps {s : Nat} (hi : f.code[ip]? = some i) (hs : s ∈ directSuccessors ip i f)
    (hdst : i.anyDst = none) (r : Nat) (h : Needed f r s) : Needed f r ip :=
  .passes hi hs (by rw [hdst]; intro heq; cases heq) h

theorem Needed.unless {s d : Nat} (hi : f.code[ip]? = some i)
    (hs : s ∈ directSuccessors ip i f) (hdst : i.anyDst = some d) (r : Nat)
    (h : Needed f r s) (hne : r ≠ d) : Needed f r ip :=
  .passes hi hs (by rw [hdst]; exact fun heq => hne (Option.some.inj heq).symm) h

/-- An instruction that only writes its destination. -/
theorem together_write {d : Nat} (hi : f.code[ip]? = some i)
    (hdirect : directSuccessors ip i f = [ip + 1]) (hdst : i.anyDst = some d)
    (hkept : ∀ s ∈ directSuccessors ip i f, standing s = standing ip)
    (hcatches : a.catches.map Prod.snd = standing ip) (h : Agree m (Needed f · ip) a b w)
    (v : V) : Together m standing (.goes (Frame.setReg { a with ip := ip + 1 } d v) w)
      (.goes (Frame.setReg { b with ip := ip + 1 } d v) w) := by
  have hs : ip + 1 ∈ directSuccessors ip i f := by
    rw [hdirect]
    exact List.mem_singleton_self _
  refine .next hkept hs hcatches ?_
  exact (h.at_ (ip + 1)).setReg d v fun r hr hne => .unless hi hs hdst r hr hne

/-- An instruction that only jumps. -/
theorem together_jump {s : Nat} (hi : f.code[ip]? = some i)
    (hs : s ∈ directSuccessors ip i f) (hdst : i.anyDst = none)
    (hkept : ∀ s ∈ directSuccessors ip i f, standing s = standing ip)
    (hcatches : a.catches.map Prod.snd = standing ip) (h : Agree m (Needed f · ip) a b w) :
    Together m standing (.goes { a with ip := s } w) (.goes { b with ip := s } w) :=
  .next hkept hs hcatches ((h.at_ s).weaken (Needed.jumps hi hs hdst))

theorem together_error (hi : f.code[ip]? = some i) (hraise : i.mayRaise = true)
    (hresume : ∀ resume ∈ (standing ip).head?,
      f.catchResume ip = some resume ∧ standing resume = (standing ip).tail)
    (hcatches : a.catches.map Prod.snd = standing ip) (h : Agree m (Needed f · ip) a b w)
    (error : V) (writes : Nat → Option V) (w' : W)
    (hopens : ∀ r, m.openUpvalue w' r →
      m.openUpvalue w r ∨ r ∈ i.reads f ∨ (writes r).isSome) :
    Together m standing (Machine.handleError error (a.overlay writes) w')
      (Machine.handleError error (b.overlay writes) w') := by
  have hregs : ∀ s, f.catchResume ip = some s →
      Agree m (Needed f · s) (a.overlay writes) (b.overlay writes) w' := by
    intro s hs
    refine h.overlay writes fun r hwritten hr => ?_
    cases hr with
    | inl hneeded => exact .inl (.caught hi hraise hs hneeded)
    | inr hopen =>
        cases hopens r hopen with
        | inl hbefore => exact .inr hbefore
        | inr hrest =>
            cases hrest with
            | inl hreads => exact .inl (.read hi hreads)
            | inr hsome => rw [hwritten] at hsome; exact absurd hsome Bool.false_ne_true
  cases hstack : a.catches with
  | nil =>
      have hb : b.catches = [] := h.catches ▸ hstack
      simp only [Machine.handleError, Frame.overlay, hstack, hb]
      exact .escapes error w'
  | cons top rest =>
      obtain ⟨varReg, resume⟩ := top
      have hb : b.catches = (varReg, resume) :: rest := h.catches ▸ hstack
      rw [hstack, List.map_cons] at hcatches
      obtain ⟨hcaught, hrest⟩ := hresume resume (by rw [← hcatches]; rfl)
      have hafter : rest.map Prod.snd = standing resume := by rw [hrest, ← hcatches]; rfl
      have hagree := ((hregs resume hcaught).at_ resume).withCatches rest
      cases varReg with
      | none =>
          simp only [Machine.handleError, Frame.overlay, hstack, hb]
          exact .goes hagree hafter
      | some reg =>
          simp only [Machine.handleError, Frame.overlay, hstack, hb]
          exact .goes (hagree.setReg reg error fun r hr _ => hr) hafter

theorem together_perform (hi : f.code[ip]? = some i)
    (hdirect : directSuccessors ip i f = [ip + 1])
    (hn : Leaves f standing ip i) (hcatches : a.catches.map Prod.snd = standing ip) (h : Agree m (Needed f · ip) a b w) :
    Together m standing (m.perform i { a with ip := ip + 1 } w)
      (m.perform i { b with ip := ip + 1 } w) := by
  have hs : ip + 1 ∈ directSuccessors ip i f := by
    rw [hdirect]
    exact List.mem_singleton_self _
  have hreads : m.operate i b.regs w = m.operate i a.regs w :=
    m.reads_only i _ _ w fun r hr => (h.regs r (hr.imp_left (.read hi))).symm
  simp only [Machine.perform, hreads]
  cases hop : m.operate i a.regs w with
  | done writes w' =>
      refine .next hn.1 hs hcatches ((h.at_ (ip + 1)).overlay writes fun r hwritten hr => ?_)
      cases hr with
      | inl hneeded =>
          refine .inl (.passes hi hs (fun hdst => ?_) hneeded)
          have hsome := m.writes_dst i _ w w' writes r hop hdst
          rw [hwritten] at hsome
          exact Bool.false_ne_true hsome
      | inr hopen =>
          cases m.opens_done i _ w w' writes r hop hopen with
          | inl hbefore => exact .inr hbefore
          | inr hrest =>
              cases hrest with
              | inl hmem => exact .inl (.read hi hmem)
              | inr hsome => rw [hwritten] at hsome; exact absurd hsome Bool.false_ne_true
  | raised error writes w' =>
      have hraise := m.quiet i _ w w' error writes hop
      exact together_error (a := { a with ip := ip + 1 }) hi hraise (hn.2 hraise) hcatches
        (h.at_ (ip + 1)) error writes w'
        fun r => m.opens_raised i _ w w' error writes r hop
  | diverges => exact .diverges

theorem jump_target (ip : Nat) (offset : Int) :
    asUsize (((ip + 1 : Nat) : Int) + offset) = asUsize (ip + 1 + offset) := by
  rfl

theorem mem_jumpTable {key : Option Zuri.Compiler.Using.JumpKey} {tableIdx target : Nat}
    (h : key.bind (List.lookup · (f.jumpTable tableIdx)) = some target) :
    target ∈ (f.jumpTable tableIdx).map (·.2) := by
  obtain ⟨k, _, hlookup⟩ := Option.bind_eq_some_iff.mp h
  obtain ⟨before, after, hsplit, _⟩ := List.lookup_eq_some_iff.mp hlookup
  exact List.mem_map.mpr ⟨(k, target), by rw [hsplit]; simp, rfl⟩

theorem together_exec (hi : f.code[ip]? = some i) (hn : Nests f standing ip i)
    (hcatches : a.catches.map Prod.snd = standing ip) (h : Agree m (Needed f · ip) a b w) :
    Together m standing (m.exec i { a with ip := ip + 1 } w)
      (m.exec i { b with ip := ip + 1 } w) := by
  have hread : ∀ r, r ∈ i.reads f → b.regs r = a.regs r := fun r hr =>
    (h.regs r (.inl (.read hi hr))).symm
  cases i with
  | loadConst dst constIdx => exact together_write hi rfl rfl hn.1 hcatches h _
  | loadNil dst => exact together_write hi rfl rfl hn.1 hcatches h _
  | loadBool dst val => exact together_write hi rfl rfl hn.1 hcatches h _
  | move dst src =>
      simp only [Machine.exec, hread src (List.mem_singleton_self src)]
      exact together_write hi rfl rfl hn.1 hcatches h _
  | jmp offset =>
      simp only [Machine.exec, Frame.jump, jump_target]
      exact together_jump hi (List.mem_singleton_self _) rfl hn.1 hcatches h
  | jmpIfFalse cond offset =>
      simp only [Machine.exec, hread cond (List.mem_singleton_self cond)]
      cases m.isFalsey w (a.regs cond) with
      | true =>
          simp only [if_true, Frame.jump, jump_target]
          exact together_jump hi (List.mem_cons_self ..) rfl hn.1 hcatches h
      | false =>
          simp only [Bool.false_eq_true, if_false]
          exact together_jump hi (List.mem_cons_of_mem _ (List.mem_singleton_self _)) rfl hn.1
            hcatches h
  | jmpIfTrue cond offset =>
      simp only [Machine.exec, hread cond (List.mem_singleton_self cond)]
      cases m.isFalsey w (a.regs cond) with
      | true =>
          simp only [if_true]
          exact together_jump hi (List.mem_cons_of_mem _ (List.mem_singleton_self _)) rfl hn.1
            hcatches h
      | false =>
          simp only [Bool.false_eq_true, if_false, Frame.jump, jump_target]
          exact together_jump hi (List.mem_cons_self ..) rfl hn.1 hcatches h
  | ret src =>
      have hclose : m.closeUpvalues b.regs w = m.closeUpvalues a.regs w :=
        m.close_reads _ _ w fun r hr => (h.regs r (.inr hr)).symm
      simp only [Machine.exec, hread src (List.mem_singleton_self src), hclose]
      exact .returns _ _
  | usingJump subject tableIdx =>
      simp only [Machine.exec, hread subject (List.mem_singleton_self subject)]
      cases hkey : (m.valueToJumpKey w (a.regs subject)).bind (List.lookup · (f.jumpTable tableIdx)) with
      | some target =>
          exact together_jump hi (List.mem_append_left _ (mem_jumpTable hkey)) rfl hn.1
            hcatches h
      | none =>
          exact together_jump hi (List.mem_append_right _ (List.mem_singleton_self _)) rfl hn.1
            hcatches h
  | pushCatch varReg offset =>
      have hstands : standing (ip + 1) = asUsize (ip + 1 + offset) :: standing ip := hn
      have hs : ip + 1 ∈ directSuccessors ip (.pushCatch varReg offset) f :=
        List.mem_singleton_self _
      simp only [Machine.exec, jump_target, ← h.catches]
      refine .goes ?_ ?_
      · exact ((h.at_ (ip + 1)).withCatches _).weaken (Needed.jumps hi hs rfl)
      · rw [List.map_cons, hcatches, hstands]
  | popCatch =>
      have hstands : standing (ip + 1) = (standing ip).tail := hn
      have hs : ip + 1 ∈ directSuccessors ip .popCatch f := List.mem_singleton_self _
      simp only [Machine.exec, ← h.catches]
      refine .goes ?_ ?_
      · exact ((h.at_ (ip + 1)).withCatches _).weaken (Needed.jumps hi hs rfl)
      · rw [List.map_tail, hcatches, hstands]
  | _ => exact together_perform hi rfl hn hcatches h

theorem nests_of_bounded
    (h : ∀ ip < f.code.length, ∀ i ∈ f.code[ip]?, Nests f standing ip i) (ip : Nat) (i : Instr)
    (hi : f.code[ip]? = some i) : Nests f standing ip i :=
  h ip (List.getElem?_eq_some_iff.mp hi).1 i hi

theorem together_step (hf : Compiled f standing) (hcatches : a.catches.map Prod.snd = standing a.ip)
    (h : Agree m (Needed f · a.ip) a b w) :
    Together m standing (m.step a w) (m.step b w) := by
  simp only [Machine.step, ← h.ip]
  cases hi : f.code[a.ip]? with
  | none => exact .escapes _ _
  | some i => exact together_exec hi (hf.nests _ i hi) hcatches h

theorem run_together (hf : Compiled f standing) (n : Nat) :
    ∀ (a b : Frame V) (w : W), a.catches.map Prod.snd = standing a.ip →
      Agree m (Needed f · a.ip) a b w → m.run n a w = m.run n b w := by
  induction n with
  | zero =>
      intro a b w _ h
      simp only [Machine.run, h.ip]
  | succ n ih =>
      intro a b w hcatches h
      simp only [Machine.run, ← h.ip]
      have hstep := together_step hf hcatches h
      generalize m.step a w = x at hstep
      generalize m.step b w = y at hstep
      cases hstep with
      | goes hagree hcaught => simp only [ih _ _ _ hcaught hagree]
      | returns v w => rfl
      | escapes error w => rfl
      | diverges => rfl

end Together
end Zuri.Vm
