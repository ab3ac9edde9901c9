import Zuri.Http.WebSocket

/-!
Frames on the wire. What is written is one frame; a frame that is allowed is read as what it
carries, and one that is not is refused.
-/

namespace Zuri.Http.WebSocket

/-- A frame as it stands on the wire, with the key that masks it if there is one. -/
structure WireFrame where
  final : Bool
  reserved : Fin 8
  opcode : Fin 16
  key : Option Key
  payload : Bytes

def firstByte (final : Bool) (reserved : Fin 8) (opcode : Fin 16) : UInt8 :=
  (if final then 128 else 0) ||| UInt8.ofNat (reserved.val * 16) ||| UInt8.ofNat opcode.val

def maskBit (masked : Bool) : UInt8 := if masked then 128 else 0

def WireFrame.body (f : WireFrame) : Bytes :=
  match f.key with
  | none => f.payload
  | some key => key.bytes ++ unmask f.payload key.bytes

def WireFrame.bytes (f : WireFrame) : Bytes :=
  firstByte f.final f.reserved f.opcode ::
    lengthBytes (maskBit f.key.isSome) f.payload.length ++ f.body

def WireFrame.frame (f : WireFrame) : Frame := ⟨UInt8.ofNat f.opcode.val, f.final, f.payload⟩

theorem firstByte_bits (final : Bool) (reserved : Fin 8) (opcode : Fin 16) :
    decide (firstByte final reserved opcode &&& 128 ≠ 0) = final ∧
      (firstByte final reserved opcode &&& 112 ≠ 0 ↔ reserved ≠ 0) ∧
      firstByte final reserved opcode &&& 15 = UInt8.ofNat opcode.val := by
  revert final reserved opcode
  decide

theorem opcode_toNat (opcode : Fin 16) : (UInt8.ofNat opcode.val).toNat = opcode.val := by
  revert opcode
  decide

theorem secondByte_bits (masked : Bool) (short : Fin 128) :
    decide ((maskBit masked ||| UInt8.ofNat short.val) &&& 128 ≠ 0) = masked ∧
      ((maskBit masked ||| UInt8.ofNat short.val) &&& 127).toNat = short.val := by
  revert masked short
  decide

theorem length_unmask (payload key : Bytes) : (unmask payload key).length = payload.length :=
  List.length_mapIdx

theorem unmask_unmask (payload key : Bytes) : unmask (unmask payload key) key = payload := by
  apply List.ext_getElem
  · rw [length_unmask, length_unmask]
  · intro i h₁ h₂
    simp only [unmask, List.getElem_mapIdx, UInt8.xor_assoc, UInt8.xor_self, UInt8.xor_zero]

theorem Key.length_bytes (key : Key) : key.bytes.length = 4 := List.length_ofFn

def shortLength (length : Nat) : Nat :=
  if length < 126 then length else if length < 65536 then 126 else 127

def extension (length : Nat) : Bytes :=
  if length < 126 then []
  else if length < 65536 then [UInt8.ofNat (length / 256 % 256), UInt8.ofNat (length % 256)]
  else octets 8 length []

theorem shortLength_lt (length : Nat) : shortLength length < 128 := by
  unfold shortLength
  split
  · omega
  · split <;> omega

theorem lengthBytes_eq (bit : UInt8) (length : Nat) :
    lengthBytes bit length = (bit ||| UInt8.ofNat (shortLength length)) :: extension length := by
  unfold lengthBytes shortLength extension
  split
  · rfl
  · split <;> rfl

theorem toNat_ofNat_mod (n : Nat) : (UInt8.ofNat (n % 256)).toNat = n % 256 := by simp

theorem octets_length (n remaining : Nat) (bytes : Bytes) :
    (octets n remaining bytes).length = n + bytes.length := by
  induction n generalizing remaining bytes with
  | zero => rw [octets, Nat.zero_add]
  | succ n ih =>
      rw [octets, ih, List.length_cons]
      omega

theorem octets_foldl (n remaining : Nat) (bytes : Bytes) (start : Nat) :
    (octets n remaining bytes).foldl (fun length b => length * 256 + b.toNat) start =
      bytes.foldl (fun length b => length * 256 + b.toNat)
        (start * 256 ^ n + remaining % 256 ^ n) := by
  induction n generalizing remaining bytes with
  | zero => rw [octets, Nat.pow_zero, Nat.mod_one, Nat.mul_one, Nat.add_zero]
  | succ n ih =>
      rw [octets, ih, List.foldl_cons, toNat_ofNat_mod]
      congr 1
      have hmod : remaining % 256 ^ (n + 1) =
          remaining % 256 + 256 * (remaining / 256 % 256 ^ n) := by
        rw [Nat.pow_succ', Nat.mod_mul]
      rw [hmod, Nat.pow_succ, Nat.add_mul, Nat.mul_assoc]
      omega

/-- The first octet stays below 128 for lengths below `2 ^ 63`. -/
theorem octets_head {length : Nat} (h : length < 2 ^ 63) :
    ((octets 8 length []).getD 0 0) &&& 128 = 0 := by
  have hhead : (octets 8 length []).getD 0 0 = UInt8.ofNat (length / 256 ^ 7 % 256) := by
    simp only [octets, Nat.div_div_eq_div_mul]
    rfl
  have hsmall : ∀ k : Fin 128, UInt8.ofNat k.val &&& 128 = 0 := by decide
  rw [hhead, Nat.mod_eq_of_lt (by omega)]
  exact hsmall ⟨length / 256 ^ 7, by omega⟩

namespace Socket

variable {s : Socket} {rest : Bytes}

theorem readExactly_append {bytes : Bytes} (h : s.input = bytes ++ rest) :
    s.readExactly bytes.length = .ok (bytes, { s with input := rest }) := by
  rw [readExactly, h, if_pos (by simp), List.take_left, List.drop_left]

theorem readLength_extension {length : Nat} (hlength : length < 2 ^ 63)
    (h : s.input = extension length ++ rest) :
    s.readLength (shortLength length) = .ok (length, { s with input := rest }) := by
  unfold extension at h
  unfold readLength shortLength
  split at h
  · next hshort =>
      rw [if_pos hshort, if_neg (by omega), if_neg (by omega)]
      obtain rfl : rest = s.input := (h.trans (List.nil_append rest)).symm
      rfl
  · next hlong =>
      rw [if_neg hlong]
      split at h
      · next htwo =>
          have hread := readExactly_append h
          rw [if_pos htwo, if_pos rfl]
          change (s.readExactly 2 >>= _) = _
          rw [show s.readExactly 2 = _ from hread]
          simp only [bind, Except.bind, pure, Except.pure, List.getD_cons_zero, List.getD_cons_succ]
          rw [toNat_ofNat_mod, toNat_ofNat_mod]
          congr 2
          omega
      · next height =>
          have hread := readExactly_append h
          rw [octets_length] at hread
          have hvalue : (octets 8 length []).foldl (fun length b => length * 256 + b.toNat) 0 =
              length := by
            rw [octets_foldl, List.foldl_nil, Nat.zero_mul, Nat.zero_add,
              Nat.mod_eq_of_lt (by omega)]
          rw [if_neg height, if_neg (by decide), if_pos rfl]
          change (s.readExactly 8 >>= _) = _
          rw [show s.readExactly 8 = _ from hread]
          simp only [bind, Except.bind, pure, Except.pure, octets_head hlength, ne_eq,
            not_true_eq_false, if_false, hvalue]

/-- Whatever the length, its bytes are there to be read. -/
theorem readLength_cases {length : Nat} (h : s.input = extension length ++ rest) :
    (∃ message, s.readLength (shortLength length) = .error (.protocol message)) ∨
      ∃ length', s.readLength (shortLength length) = .ok (length', { s with input := rest }) := by
  by_cases hsmall : length < 2 ^ 63
  · exact .inr ⟨length, readLength_extension hsmall h⟩
  · have hextension : extension length = octets 8 length [] := by
      rw [extension, if_neg (by omega), if_neg (by omega)]
    have hshort : shortLength length = 127 := by
      rw [shortLength, if_neg (by omega), if_neg (by omega)]
    rw [hextension] at h
    have hread := readExactly_append h
    rw [octets_length] at hread
    rw [hshort, readLength, if_neg (by decide), if_pos rfl]
    change (∃ message, (s.readExactly 8 >>= _) = _) ∨ ∃ length', (s.readExactly 8 >>= _) = _
    rw [show s.readExactly 8 = _ from hread]
    simp only [bind, Except.bind]
    split
    · exact .inl ⟨_, rfl⟩
    · exact .inr ⟨_, rfl⟩

/-- A frame is allowed to an end: no bit is reserved, a control frame is short, the end that is
a client sends unmasked and the other masked, and it is not too large. -/
structure Allowed (f : WireFrame) (s : Socket) : Prop where
  reserved : f.reserved = 0
  short : 8 ≤ f.opcode.val → f.payload.length ≤ 125
  masked : f.key.isSome = !s.isClient
  size : f.payload.length ≤ s.maxMessageSize

theorem shortLength_le {length : Nat} (h : length ≤ 125) : shortLength length = length :=
  if_pos (by omega)

theorem shortLength_gt {length : Nat} (h : 125 < length) : 125 < shortLength length := by
  unfold shortLength
  rw [if_neg (by omega)]
  split <;> decide

/-- The header of a frame, and what it says. -/
theorem readFrame_header (f : WireFrame) (h : s.input = f.bytes ++ rest) : s.readFrame =
    (if f.reserved ≠ 0 then
      .error (.protocol "a reserved frame bit is set without a negotiated extension")
    else if 8 ≤ f.opcode.val ∧ 125 < shortLength f.payload.length then
      .error (.protocol "a control frame may not carry more than 125 bytes")
    else do
      let (length, s) ← { s with input := extension f.payload.length ++ (f.body ++ rest) }.readLength
        (shortLength f.payload.length)
      if s.maxMessageSize < length then
        .error (.protocol s!"frame of {length} bytes exceeds the message limit")
      else if s.isClient = f.key.isSome then
        .error (.protocol (if f.key.isSome then "a server may not mask a frame"
          else "a client must mask every frame"))
      else if f.key.isSome then do
        let (key, s) ← s.readExactly 4
        let (payload, s) ← s.readExactly length
        return (⟨UInt8.ofNat f.opcode.val, f.final, unmask payload key⟩, s)
      else do
        let (payload, s) ← s.readExactly length
        return (⟨UInt8.ofNat f.opcode.val, f.final, payload⟩, s)) := by
  obtain ⟨hfinal, hreserved, hopcode⟩ := firstByte_bits f.final f.reserved f.opcode
  obtain ⟨hmasked, hlength⟩ :=
    secondByte_bits f.key.isSome ⟨shortLength f.payload.length, shortLength_lt _⟩
  have hinput : s.input = [firstByte f.final f.reserved f.opcode,
      maskBit f.key.isSome ||| UInt8.ofNat (shortLength f.payload.length)] ++
        (extension f.payload.length ++ (f.body ++ rest)) := by
    rw [h, WireFrame.bytes, lengthBytes_eq]
    simp only [List.cons_append, List.nil_append, List.append_assoc]
  have hread := readExactly_append hinput
  unfold readFrame
  rw [show s.readExactly 2 = _ from hread]
  simp only [bind, Except.bind, List.getD_cons_zero, List.getD_cons_succ, hfinal, hopcode,
    hmasked, hlength, opcode_toNat, hreserved]

theorem readFrame_bytes {f : WireFrame} (hf : Allowed f s) (h : s.input = f.bytes ++ rest) :
    s.readFrame = .ok (f.frame, { s with input := rest }) := by
  have hexact := s.exact
  have hsize := hf.size
  have hcontrol : ¬(8 ≤ f.opcode.val ∧ 125 < shortLength f.payload.length) := by
    rintro ⟨hcontrol, hlong⟩
    have hshort := hf.short hcontrol
    rw [shortLength_le hshort] at hlong
    omega
  rw [readFrame_header f h, if_neg (not_not_intro hf.reserved), if_neg hcontrol,
    readLength_extension (by omega) rfl]
  simp only [bind, Except.bind]
  rw [if_neg (Nat.not_lt.mpr hsize)]
  have hrole : ¬s.isClient = f.key.isSome := by
    rw [hf.masked]
    cases s.isClient <;> decide
  rw [if_neg hrole]
  unfold WireFrame.body
  cases hkey : f.key with
  | none =>
      simp only [Option.isSome_none, Bool.false_eq_true, if_false]
      rw [readExactly_append rfl]
      rfl
  | some key =>
      simp only [Option.isSome_some, if_true]
      have hread := readExactly_append (s := { s with
        input := key.bytes ++ (unmask f.payload key.bytes ++ rest) }) rfl
      rw [key.length_bytes] at hread
      rw [List.append_assoc, hread]
      have hread := readExactly_append (s := { s with
        input := unmask f.payload key.bytes ++ rest }) rfl
      rw [length_unmask] at hread
      simp only [hread, unmask_unmask]
      rfl

/-- A reserved bit, a control frame that is too long and wrong masking are refused. -/
theorem readFrame_refused {f : WireFrame} (h : s.input = f.bytes ++ rest)
    (hf : f.reserved ≠ 0 ∨ (8 ≤ f.opcode.val ∧ 125 < f.payload.length) ∨
      f.key.isSome = s.isClient) :
    ∃ message, s.readFrame = .error (.protocol message) := by
  rw [readFrame_header f h]
  by_cases hreserved : f.reserved ≠ 0
  · exact ⟨_, if_pos hreserved⟩
  · rw [if_neg hreserved]
    by_cases hcontrol : 8 ≤ f.opcode.val ∧ 125 < shortLength f.payload.length
    · exact ⟨_, if_pos hcontrol⟩
    · rw [if_neg hcontrol]
      have hrole : s.isClient = f.key.isSome := by
        rcases hf with hf | hf | hf
        · exact absurd hf hreserved
        · exact absurd ⟨hf.1, shortLength_gt hf.2⟩ hcontrol
        · exact hf.symm
      rcases readLength_cases (s := { s with
        input := extension f.payload.length ++ (f.body ++ rest) }) rfl with
          ⟨message, herror⟩ | ⟨length, hok⟩
      · rw [herror]
        exact ⟨message, rfl⟩
      · rw [hok]
        simp only [bind, Except.bind]
        by_cases hlarge : s.maxMessageSize < length
        · exact ⟨_, if_pos hlarge⟩
        · rw [if_neg hlarge, if_pos hrole]
          exact ⟨_, rfl⟩

end Socket

end Zuri.Http.WebSocket
