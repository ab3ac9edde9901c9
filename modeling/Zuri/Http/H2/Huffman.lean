import Zuri.Coding.PrefixCode

/-!
The Huffman code of header strings: the table built out of the code lengths, the
encoder, which packs words into octets and fills the last one with ones, and the
decoder, which walks the table a bit at a time.
-/

namespace Zuri.Http.H2

open Coding

def huffmanCodeLengths : List Nat := [
  13, 23, 28, 28, 28, 28, 28, 28, 28, 24, 30, 28, 28, 30, 28, 28, 28, 28, 28, 28, 28, 28, 30, 28,
  28, 28, 28, 28, 28, 28, 28, 28, 6, 10, 10, 12, 13, 6, 8, 11, 10, 10, 8, 11, 8, 6, 6, 6, 5, 5, 5,
  6, 6, 6, 6, 6, 6, 6, 7, 8, 15, 6, 12, 10, 13, 6, 7, 7, 7, 7, 7, 7, 7, 7, 7, 7, 7, 7, 7, 7, 7, 7,
  7, 7, 7, 7, 7, 7, 8, 7, 8, 13, 19, 13, 14, 6, 15, 5, 6, 5, 6, 5, 6, 6, 6, 5, 7, 7, 6, 6, 6, 5, 6,
  7, 6, 5, 5, 6, 7, 7, 7, 7, 7, 15, 11, 14, 13, 28, 20, 22, 20, 20, 22, 22, 22, 23, 22, 23, 23, 23,
  23, 23, 24, 23, 24, 24, 22, 23, 24, 23, 23, 23, 23, 21, 22, 23, 22, 23, 23, 24, 22, 21, 20, 22,
  22, 23, 23, 21, 23, 22, 22, 24, 21, 22, 23, 23, 21, 21, 22, 21, 23, 22, 23, 23, 20, 22, 22, 22,
  23, 22, 22, 23, 26, 26, 20, 19, 22, 23, 22, 25, 26, 26, 26, 27, 27, 26, 24, 25, 19, 21, 26, 27,
  27, 26, 27, 24, 21, 21, 26, 26, 28, 27, 27, 27, 20, 24, 20, 21, 22, 21, 21, 23, 22, 22, 25, 25,
  24, 24, 26, 23, 26, 27, 26, 26, 27, 27, 27, 27, 27, 28, 27, 27, 27, 27, 27, 26, 30]

/-- The symbols with their lengths, a length at a time. -/
def byLength : List (Nat × Nat) :=
  (List.range' 1 30).flatMap fun length =>
    (huffmanCodeLengths.zipIdx.filter fun entry => entry.1 == length).map fun entry =>
      (entry.2, length)

def huffmanCodes : List (Nat × Nat × Nat) := canonical byLength 0 0

def huffmanNodes : Trie Nat := trieOf (huffmanCodes.map wordOf)

/-- The code of a symbol and its length in bits. -/
def huffmanCode (symbol : Nat) : Nat × Nat :=
  ((huffmanCodes.find? fun entry => entry.1 == symbol).map (·.2)).getD (0, 0)

/-- The octets that are complete in the accumulator, and the bits left in it. -/
def drain (accumulator : Nat) (bits : Nat) : List UInt8 × Nat :=
  if 8 ≤ bits then
    let (out, left) := drain accumulator (bits - 8)
    (UInt8.ofNat (accumulator >>> (bits - 8)) :: out, left)
  else ([], bits)
termination_by bits

def huffmanEncodeLoop : List UInt8 → Nat → Nat → List UInt8
  | [], accumulator, bits =>
      if 0 < bits then
        let padding := 8 - bits
        [UInt8.ofNat ((accumulator <<< padding) % 2 ^ 64 ||| (2 ^ padding - 1))]
      else []
  | byte :: data, accumulator, bits =>
      let (code, length) := huffmanCode byte.toNat
      let accumulator := (accumulator <<< length) % 2 ^ 64 ||| code
      let (out, left) := drain accumulator (bits + length)
      out ++ huffmanEncodeLoop data accumulator left

def huffmanEncode (data : List UInt8) : List UInt8 := huffmanEncodeLoop data 0 0

def huffmanEncodedLen (data : List UInt8) : Nat :=
  (data.foldl (fun bits byte => bits + huffmanCodeLengths.getD byte.toNat 0) 0 + 7) / 8

structure HuffmanState where
  node : Trie Nat
  bitsSinceLeaf : Nat
  allOnes : Bool
  out : List UInt8

def HuffmanState.atRoot (out : List UInt8) : HuffmanState := ⟨huffmanNodes, 0, true, out⟩

def huffmanBit (state : HuffmanState) (bit : Bool) : Except Nat HuffmanState :=
  let next := state.node.child bit
  if next.present then
    match next.symbol with
    | some symbol =>
        if symbol = 256 then .error 2
        else .ok (.atRoot (state.out ++ [UInt8.ofNat symbol]))
    | none => .ok ⟨next, state.bitsSinceLeaf + 1, state.allOnes && bit, state.out⟩
  else .error 1

def byteBits (byte : UInt8) : List Bool := bitsOf byte.toNat 8

def huffmanBits : List Bool → HuffmanState → Except Nat HuffmanState
  | [], state => .ok state
  | bit :: bits, state =>
      match huffmanBit state bit with
      | .error code => .error code
      | .ok next => huffmanBits bits next

def huffmanDecode (data : List UInt8) : Except Nat (List UInt8) :=
  match huffmanBits (data.flatMap byteBits) (.atRoot []) with
  | .error code => .error code
  | .ok state =>
      if 7 < state.bitsSinceLeaf || !state.allOnes then .error 3 else .ok state.out

theorem byLength_mem (entry : Nat × Nat) :
    entry ∈ byLength ↔ 1 ≤ entry.2 ∧ entry.2 ≤ 30 ∧
      (entry.2, entry.1) ∈ huffmanCodeLengths.zipIdx := by
  obtain ⟨symbol, length⟩ := entry
  simp only [byLength, List.mem_flatMap, List.mem_range'_1, List.mem_map, List.mem_filter,
    beq_iff_eq, Prod.mk.injEq]
  constructor
  · rintro ⟨l, ⟨h1, h2⟩, ⟨l', s⟩, ⟨hm, hl⟩, hs, hle⟩
    simp only at hl hs hle
    subst hl hs hle
    exact ⟨h1, by omega, hm⟩
  · rintro ⟨h1, h2, hm⟩
    exact ⟨length, ⟨h1, by omega⟩, (length, symbol), ⟨hm, rfl⟩, rfl, rfl⟩

theorem byLength_sorted : byLength.Pairwise (fun a b => a.2 ≤ b.2) := by
  unfold byLength
  rw [List.pairwise_flatMap]
  constructor
  · intro length _
    apply List.pairwise_of_forall_mem_list
    intro a ha b hb
    obtain ⟨_, _, rfl⟩ := List.mem_map.mp ha
    obtain ⟨_, _, rfl⟩ := List.mem_map.mp hb
    exact Nat.le_refl length
  · apply (List.pairwise_lt_range' (s := 1) (n := 30)).imp
    intro x y hxy a ha b hb
    obtain ⟨_, _, rfl⟩ := List.mem_map.mp ha
    obtain ⟨_, _, rfl⟩ := List.mem_map.mp hb
    exact Nat.le_of_lt hxy

theorem huffmanCodes_fit : ∀ entry ∈ huffmanCodes, entry.2.1 < 2 ^ entry.2.2 := by
  have h : (huffmanCodes.all fun entry => decide (entry.2.1 < 2 ^ entry.2.2)) = true := by
    decide +kernel
  intro entry he
  simpa using List.all_eq_true.mp h entry he

theorem huffmanCodes_prefixFree : PrefixFree (huffmanCodes.map wordOf) :=
  canonical_prefixFree byLength 0 0 (fun _ _ => Nat.zero_le _) byLength_sorted huffmanCodes_fit

theorem huffmanCodeLengths_range : ∀ l ∈ huffmanCodeLengths, 1 ≤ l ∧ l ≤ 30 := by
  have h : (huffmanCodeLengths.all fun l => decide (1 ≤ l ∧ l ≤ 30)) = true := by
    decide +kernel
  intro l hl
  simpa using List.all_eq_true.mp h l hl

theorem huffmanCode_mem (symbol : Nat) (h : symbol < 257) :
    (symbol, huffmanCode symbol) ∈ huffmanCodes := by
  have hcount : huffmanCodeLengths.length = 257 := by decide +kernel
  have hlen : symbol < huffmanCodeLengths.length := by omega
  obtain ⟨hlow, hhigh⟩ := huffmanCodeLengths_range _ (List.getElem_mem hlen)
  have hmem : (symbol, huffmanCodeLengths[symbol]) ∈ byLength := by
    apply (byLength_mem _).mpr
    refine ⟨hlow, hhigh, ?_⟩
    rw [List.mem_zipIdx_iff_getElem?]
    exact List.getElem?_eq_getElem hlen
  rw [← canonical_lengths byLength 0 0] at hmem
  obtain ⟨entry, he, heq⟩ := List.mem_map.mp hmem
  have hkey : entry.1 = symbol := congrArg Prod.fst heq
  cases hf : huffmanCodes.find? (fun entry => entry.1 == symbol) with
  | none =>
      have hno := List.find?_eq_none.mp hf entry he
      exact absurd (beq_iff_eq.mpr hkey) hno
  | some found =>
      have hs : found.1 = symbol := by
        have hb := List.find?_some hf
        exact beq_iff_eq.mp hb
      have hm := List.mem_of_find?_eq_some hf
      have hcode : huffmanCode symbol = found.2 := by simp [huffmanCode, hf]
      rw [hcode, ← hs]
      exact hm

theorem huffmanCode_length (symbol : Nat) (h : symbol < 257) :
    huffmanCodeLengths[symbol]? = some (huffmanCode symbol).2 := by
  have hmem := List.mem_map_of_mem (f := fun entry => (entry.1, entry.2.2))
    (huffmanCode_mem symbol h)
  unfold huffmanCodes at hmem
  rw [canonical_lengths] at hmem
  have hz := ((byLength_mem _).mp hmem).2.2
  exact List.mem_zipIdx_iff_getElem?.mp hz

/-- The word of a symbol. -/
def huffmanWord (symbol : Nat) : List Bool :=
  bitsOf (huffmanCode symbol).1 (huffmanCode symbol).2

theorem huffmanWord_mem (symbol : Nat) (h : symbol < 257) :
    (huffmanWord symbol, symbol) ∈ huffmanCodes.map wordOf :=
  List.mem_map.mpr ⟨_, huffmanCode_mem symbol h, rfl⟩

/-- The end-of-string symbol has the word of thirty ones. -/
theorem huffmanWord_eos : huffmanWord 256 = List.replicate 30 true := by
  have heos : huffmanCode 256 = (2 ^ 30 - 1, 30) := by decide +kernel
  rw [← bitsOf_ones 30]
  simp only [huffmanWord, heos]

theorem byteBits_ofNat (value : Nat) : byteBits (UInt8.ofNat value) = bitsOf value 8 := by
  unfold byteBits
  rw [UInt8.toNat_ofNat']
  exact bitsOf_mod value 8 8 (Nat.le_refl 8)

theorem drain_bits (accumulator bits : Nat) :
    (drain accumulator bits).2 < 8 ∧
      bitsOf accumulator bits = (drain accumulator bits).1.flatMap byteBits ++
        bitsOf accumulator (drain accumulator bits).2 := by
  induction bits using Nat.strongRecOn with
  | ind bits ih =>
      unfold drain
      split
      · rename_i h
        obtain ⟨hsmall, hbits⟩ := ih (bits - 8) (by omega)
        refine ⟨hsmall, ?_⟩
        have hsplit : bits = 8 + (bits - 8) := by omega
        conv_lhs => rw [hsplit, bitsOf_add, hbits]
        simp only [List.flatMap_cons, byteBits_ofNat, List.append_assoc]
      · rename_i h
        exact ⟨by simp only; omega, by simp⟩

theorem huffmanEncodeLoop_bits (data : List UInt8) (accumulator bits : Nat) (h : bits < 8) :
    ∃ k < 8, (huffmanEncodeLoop data accumulator bits).flatMap byteBits =
      bitsOf accumulator bits ++ data.flatMap (fun byte => huffmanWord byte.toNat) ++
        List.replicate k true := by
  induction data generalizing accumulator bits with
  | nil =>
      unfold huffmanEncodeLoop
      split
      · rename_i hpos
        refine ⟨8 - bits, by omega, ?_⟩
        simp only [List.flatMap_cons, List.flatMap_nil, List.append_nil, byteBits_ofNat]
        have hsplit : (8 : Nat) = bits + (8 - bits) := by omega
        have hsmall : 2 ^ (8 - bits) - 1 < 2 ^ (8 - bits) := by
          have := Nat.two_pow_pos (8 - bits)
          omega
        rw [← bitsOf_ones (8 - bits), ← bitsOf_shift_or accumulator _ bits (8 - bits) hsmall,
          ← hsplit]
        apply bitsOf_congr
        intro i hi
        rw [Nat.testBit_or, Nat.testBit_or, Nat.testBit_mod_two_pow]
        simp [Nat.lt_trans hi (by omega : 8 < 64)]
      · rename_i hzero
        have hb : bits = 0 := by omega
        subst hb
        exact ⟨0, by omega, rfl⟩
  | cons byte data ih =>
      have hbyte : byte.toNat < 257 := Nat.lt_trans byte.toNat_lt (by omega)
      have hfit := huffmanCodes_fit _ (huffmanCode_mem byte.toNat hbyte)
      have hlen : (huffmanCode byte.toNat).2 ≤ 30 := (huffmanCodeLengths_range _
        (List.mem_of_getElem? (huffmanCode_length byte.toNat hbyte))).2
      simp only [huffmanEncodeLoop]
      obtain ⟨hsmall, hdrain⟩ := drain_bits
        ((accumulator <<< (huffmanCode byte.toNat).2) % 2 ^ 64 ||| (huffmanCode byte.toNat).1)
        (bits + (huffmanCode byte.toNat).2)
      obtain ⟨k, hk, hrest⟩ := ih
        ((accumulator <<< (huffmanCode byte.toNat).2) % 2 ^ 64 ||| (huffmanCode byte.toNat).1)
        _ hsmall
      refine ⟨k, hk, ?_⟩
      have hacc : bitsOf ((accumulator <<< (huffmanCode byte.toNat).2) % 2 ^ 64 |||
          (huffmanCode byte.toNat).1) (bits + (huffmanCode byte.toNat).2) =
          bitsOf accumulator bits ++ huffmanWord byte.toNat := by
        unfold huffmanWord
        rw [← bitsOf_shift_or accumulator _ bits _ hfit]
        apply bitsOf_congr
        intro i hi
        rw [Nat.testBit_or, Nat.testBit_or, Nat.testBit_mod_two_pow]
        have : i < 64 := by omega
        simp [this]
      rw [List.flatMap_append, hrest, List.flatMap_cons, ← List.append_assoc, ← List.append_assoc,
        ← hdrain, hacc]
      simp only [List.append_assoc]

/-- What the encoder writes is the words of the octets, filled up with ones. -/
theorem huffmanEncode_bits (data : List UInt8) :
    ∃ k < 8, (huffmanEncode data).flatMap byteBits =
      data.flatMap (fun byte => huffmanWord byte.toNat) ++ List.replicate k true :=
  huffmanEncodeLoop_bits data 0 0 (by omega)

theorem length_byteBits (data : List UInt8) : (data.flatMap byteBits).length = 8 * data.length := by
  induction data with
  | nil => rfl
  | cons byte data ih =>
      rw [List.flatMap_cons, List.length_append, ih]
      simp only [byteBits, bitsOf_length, List.length_cons]
      omega

theorem length_huffmanWords (data : List UInt8) :
    data.length ≤ (data.flatMap (fun byte => huffmanWord byte.toNat)).length := by
  induction data with
  | nil => exact Nat.le_refl 0
  | cons byte data ih =>
      have hbyte : byte.toNat < 257 := Nat.lt_trans byte.toNat_lt (by omega)
      have hpos := (huffmanCodeLengths_range _
        (List.mem_of_getElem? (huffmanCode_length byte.toNat hbyte))).1
      rw [List.flatMap_cons, List.length_append]
      simp only [huffmanWord, bitsOf_length, List.length_cons]
      simp only [huffmanWord] at ih
      omega

theorem length_le_huffmanEncode (data : List UInt8) :
    data.length ≤ 8 * (huffmanEncode data).length := by
  obtain ⟨k, _, hbits⟩ := huffmanEncode_bits data
  have hlen := congrArg List.length hbits
  rw [length_byteBits, List.length_append] at hlen
  have hwords := length_huffmanWords data
  omega

theorem huffmanBits_append (v w : List Bool) (state : HuffmanState) :
    huffmanBits (v ++ w) state =
      match huffmanBits v state with
      | .error code => .error code
      | .ok next => huffmanBits w next := by
  induction v generalizing state with
  | nil => rfl
  | cons bit v ih =>
      simp only [List.cons_append, huffmanBits]
      cases huffmanBit state bit with
      | error code => rfl
      | ok next => exact ih next

/-- The state of the decoder inside a word. -/
def HuffmanState.inside (v : List Bool) (out : List UInt8) : HuffmanState :=
  ⟨huffmanNodes.walk v, v.length, v.all id, out⟩

theorem huffmanBit_inside (symbol : Nat) (h : symbol < 257) (v : List Bool) (bit : Bool)
    (out : List UInt8) (hp : v ++ [bit] <+: huffmanWord symbol)
    (hne : v ++ [bit] ≠ huffmanWord symbol) :
    huffmanBit (.inside v out) bit = .ok (.inside (v ++ [bit]) out) := by
  have hmem := huffmanWord_mem symbol h
  have hwalk : (huffmanNodes.walk v).child bit = huffmanNodes.walk (v ++ [bit]) := by
    rw [Trie.walk_append]
    rfl
  have hpresent : (huffmanNodes.walk (v ++ [bit])).present = true :=
    (trieOf_present _ _).mpr (.inr ⟨_, hmem, hp⟩)
  have hnone : (huffmanNodes.walk (v ++ [bit])).symbol = none :=
    trieOf_symbol_inside _ huffmanCodes_prefixFree _ hmem _ hp hne
  simp only [huffmanBit, HuffmanState.inside, hwalk, hpresent, hnone, if_true]
  simp [List.all_append]

theorem huffmanBit_last (symbol : Nat) (h : symbol < 256) (v : List Bool) (bit : Bool)
    (out : List UInt8) (hw : v ++ [bit] = huffmanWord symbol) :
    huffmanBit (.inside v out) bit = .ok (.atRoot (out ++ [UInt8.ofNat symbol])) := by
  have hmem := huffmanWord_mem symbol (by omega)
  have hwalk : (huffmanNodes.walk v).child bit = huffmanNodes.walk (huffmanWord symbol) := by
    rw [← hw, Trie.walk_append]
    rfl
  have hpresent : (huffmanNodes.walk (huffmanWord symbol)).present = true :=
    (trieOf_present _ _).mpr (.inr ⟨_, hmem, List.prefix_rfl⟩)
  have hsymbol : (huffmanNodes.walk (huffmanWord symbol)).symbol = some symbol :=
    trieOf_symbol _ huffmanCodes_prefixFree _ hmem
  have hne : symbol ≠ 256 := by omega
  simp only [huffmanBit, HuffmanState.inside, hwalk, hpresent, hsymbol, if_true, if_neg hne]

theorem huffmanBits_word (symbol : Nat) (h : symbol < 256) (out : List UInt8)
    (v w : List Bool) (hw : v ++ w = huffmanWord symbol) (hne : w ≠ []) :
    huffmanBits w (.inside v out) = .ok (.atRoot (out ++ [UInt8.ofNat symbol])) := by
  induction w generalizing v with
  | nil => exact absurd rfl hne
  | cons bit w ih =>
      cases w with
      | nil =>
          simp only [huffmanBits, huffmanBit_last symbol h v bit out hw]
      | cons next w =>
          have hsplit : (v ++ [bit]) ++ next :: w = huffmanWord symbol := by
            rw [List.append_assoc]
            exact hw
          have hstop : v ++ [bit] ≠ huffmanWord symbol := by
            intro he
            rw [he] at hsplit
            simp at hsplit
          have hstep := huffmanBit_inside symbol (by omega) v bit out
            (hsplit ▸ List.prefix_append _ _) hstop
          rw [huffmanBits, hstep]
          exact ih (v ++ [bit]) hsplit (List.cons_ne_nil _ _)

theorem huffmanWord_ne_nil (symbol : Nat) (h : symbol < 257) : huffmanWord symbol ≠ [] := by
  intro he
  have hlen := congrArg List.length he
  simp only [huffmanWord, bitsOf_length, List.length_nil] at hlen
  have hpos := (huffmanCodeLengths_range _
    (List.mem_of_getElem? (huffmanCode_length symbol h))).1
  omega

theorem huffmanBits_words (data : List UInt8) (out : List UInt8) :
    huffmanBits (data.flatMap (fun byte => huffmanWord byte.toNat)) (.atRoot out) =
      .ok (.atRoot (out ++ data)) := by
  induction data generalizing out with
  | nil => simp [huffmanBits]
  | cons byte data ih =>
      have hword := huffmanBits_word byte.toNat byte.toNat_lt out [] (huffmanWord byte.toNat) rfl
        (huffmanWord_ne_nil byte.toNat (Nat.lt_trans byte.toNat_lt (by omega)))
      have hstart : HuffmanState.inside [] out = .atRoot out := rfl
      rw [hstart, UInt8.ofNat_toNat] at hword
      rw [List.flatMap_cons, huffmanBits_append, hword]
      simp only [ih, List.append_assoc, List.singleton_append]

theorem huffmanBits_padding (j k : Nat) (h : j + k < 30) (out : List UInt8) :
    huffmanBits (List.replicate k true) (.inside (List.replicate j true) out) =
      .ok (.inside (List.replicate (j + k) true) out) := by
  induction k generalizing j with
  | zero => rfl
  | succ k ih =>
      have hsnoc : List.replicate j true ++ [true] = List.replicate (j + 1) true :=
        List.replicate_succ'.symm
      have hstep := huffmanBit_inside 256 (by omega) (List.replicate j true) true out
        (by
          rw [hsnoc, huffmanWord_eos]
          exact ⟨List.replicate (30 - (j + 1)) true, by
            rw [← List.replicate_add]
            congr 1
            omega⟩)
        (by
          rw [hsnoc, huffmanWord_eos]
          intro he
          have := congrArg List.length he
          simp only [List.length_replicate] at this
          omega)
      rw [hsnoc] at hstep
      rw [List.replicate_succ, huffmanBits, hstep]
      simp only
      rw [ih (j + 1) (by omega)]
      congr 3
      omega

/-- Decoding undoes encoding. -/
theorem huffmanDecode_huffmanEncode (data : List UInt8) :
    huffmanDecode (huffmanEncode data) = .ok data := by
  obtain ⟨k, hk, hbits⟩ := huffmanEncode_bits data
  have hstart : HuffmanState.atRoot data = .inside (List.replicate 0 true) data := rfl
  have hpad := huffmanBits_padding 0 k (by omega) data
  unfold huffmanDecode
  rw [hbits, huffmanBits_append, huffmanBits_words]
  simp only [List.nil_append]
  rw [hstart, hpad]
  have hfew : ¬ 7 < k := by omega
  simp [HuffmanState.inside, hfew]

end Zuri.Http.H2
