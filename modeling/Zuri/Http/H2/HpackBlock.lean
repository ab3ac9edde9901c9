import Mathlib.Data.List.Nodup
import Zuri.Http.H2.HpackInStep

/-!
Blocks as the encoder writes them. It names entries of the static table and spells the rest out,
so that reading a block back gives its fields and leaves every dynamic table as it is. The Huffman
code is read back in both directions: octets are accepted only when they are what the encoder
writes for the text they stand for.
-/

namespace Zuri.Http.H2

open Coding Eviction

theorem foldl_codeLengths (data : List UInt8) (bits : Nat) :
    data.foldl (fun bits byte => bits + huffmanCodeLengths.getD byte.toNat 0) bits =
      bits + (data.flatMap fun byte => huffmanWord byte.toNat).length := by
  induction data generalizing bits with
  | nil => rfl
  | cons byte data ih =>
      have hbyte : byte.toNat < 257 := Nat.lt_trans byte.toNat_lt (by omega)
      have hlength : huffmanCodeLengths.getD byte.toNat 0 = (huffmanWord byte.toNat).length := by
        rw [huffmanWord, bitsOf_length, List.getD_eq_getElem?_getD, huffmanCode_length _ hbyte,
          Option.getD_some]
      rw [List.foldl_cons, ih, hlength, List.flatMap_cons, List.length_append, Nat.add_assoc]

theorem huffmanEncodedLen_eq (data : List UInt8) :
    huffmanEncodedLen data = (huffmanEncode data).length := by
  obtain ⟨k, hk, hbits⟩ := huffmanEncode_bits data
  have hlength := congrArg List.length hbits
  rw [length_byteBits, List.length_append, List.length_replicate] at hlength
  rw [huffmanEncodedLen, foldl_codeLengths]
  omega

theorem byLength_nodup : (byLength.map Prod.fst).Nodup := by
  unfold byLength
  rw [List.map_flatMap, List.nodup_flatMap]
  constructor
  · intro length _
    have hsymbols : (huffmanCodeLengths.zipIdx.map Prod.snd).Nodup := by
      rw [List.zipIdx_map_snd]
      exact List.nodup_range'
    rw [List.map_map]
    exact hsymbols.sublist (List.filter_sublist.map _)
  · apply (List.pairwise_lt_range' (s := 1) (n := 30)).imp
    intro x y hxy symbol hx hy
    simp only [List.mem_map, List.mem_filter, beq_iff_eq] at hx hy
    obtain ⟨_, ⟨a, ⟨ha, rfl⟩, rfl⟩, rfl⟩ := hx
    obtain ⟨_, ⟨b, ⟨hb, rfl⟩, rfl⟩, heq⟩ := hy
    have hfirst := List.mem_zipIdx_iff_getElem?.mp ha
    have hsecond := List.mem_zipIdx_iff_getElem?.mp hb
    change b.2 = a.2 at heq
    rw [heq, hfirst] at hsecond
    exact Nat.ne_of_lt hxy (Option.some_inj.mp hsecond)

theorem huffmanCodes_nodup : (huffmanCodes.map Prod.fst).Nodup := by
  have hsame : huffmanCodes.map Prod.fst = byLength.map Prod.fst := by
    rw [← canonical_lengths byLength 0 0, List.map_map]
    rfl
  rw [hsame]
  exact byLength_nodup

theorem huffmanCodes_bound : ∀ entry ∈ huffmanCodes, entry.1 < 257 := by
  have h : (huffmanCodes.all fun entry => decide (entry.1 < 257)) = true := by decide +kernel
  intro entry hentry
  simpa using List.all_eq_true.mp h entry hentry

/-- The only words that end at a symbol are the symbols' own. -/
theorem huffmanNodes_symbol {v : List Bool} {symbol : Nat}
    (h : (huffmanNodes.walk v).symbol = some symbol) : symbol < 257 ∧ v = huffmanWord symbol := by
  by_contra hnot
  have hnone : (huffmanNodes.walk v).symbol = none := by
    refine trieOf_symbol_none _ v fun code hcode heq => hnot ?_
    have hsymbol := trieOf_symbol _ huffmanCodes_prefixFree code hcode
    rw [← heq] at hsymbol
    have hsame : code.2 = symbol := Option.some_inj.mp (hsymbol.symm.trans h)
    obtain ⟨entry, hentry, rfl⟩ := List.mem_map.mp hcode
    have hlt : entry.1 < 257 := huffmanCodes_bound entry hentry
    have hown : entry.2 = huffmanCode entry.1 := congrArg Prod.snd
      (List.inj_on_of_nodup_map huffmanCodes_nodup hentry (huffmanCode_mem entry.1 hlt) rfl)
    refine ⟨hsame ▸ hlt, ?_⟩
    rw [heq, ← hsame]
    change bitsOf entry.2.1 entry.2.2 = huffmanWord entry.1
    rw [huffmanWord, ← hown]
  rw [hnone] at h
  cases h

/-- What has been read so far: whole words, and the beginning of one more. -/
structure Reading (read : List Bool) (state : HuffmanState) : Prop where
  words : ∃ v, state = .inside v state.out ∧
    read = (state.out.flatMap fun byte => huffmanWord byte.toNat) ++ v

theorem inside_nil (out : List UInt8) : HuffmanState.inside [] out = .atRoot out := rfl

theorem reading_start : Reading [] (.atRoot []) := ⟨[], rfl, rfl⟩

theorem Reading.bit {read : List Bool} {state next : HuffmanState} {bit : Bool}
    (h : Reading read state) (hbit : huffmanBit state bit = .ok next) :
    Reading (read ++ [bit]) next := by
  obtain ⟨v, hstate, hread⟩ := h.words
  have hwalk : state.node.child bit = huffmanNodes.walk (v ++ [bit]) := by
    rw [hstate, Trie.walk_append]
    rfl
  simp only [huffmanBit, hwalk] at hbit
  split at hbit
  · cases hsymbol : (huffmanNodes.walk (v ++ [bit])).symbol with
    | some symbol =>
        obtain ⟨hlt, hword⟩ := huffmanNodes_symbol hsymbol
        simp only [hsymbol] at hbit
        split at hbit
        · cases hbit
        · next hne =>
            obtain rfl : HuffmanState.atRoot (state.out ++ [UInt8.ofNat symbol]) = next :=
              Except.ok.inj hbit
            refine ⟨[], (inside_nil _).symm, ?_⟩
            have hoctet : (UInt8.ofNat symbol).toNat = symbol := by
              rw [UInt8.toNat_ofNat']
              omega
            change read ++ [bit] = ((state.out ++ [UInt8.ofNat symbol]).flatMap
              fun byte => huffmanWord byte.toNat) ++ []
            rw [hread, List.flatMap_append, List.append_assoc, hword, List.flatMap_cons,
              List.flatMap_nil, hoctet, List.append_nil, List.append_nil]
    | none =>
        simp only [hsymbol] at hbit
        cases hbit
        refine ⟨v ++ [bit], ?_, ?_⟩
        · rw [hstate]
          simp [HuffmanState.inside]
        · rw [hread, List.append_assoc]
  · cases hbit

theorem Reading.bits {bits : List Bool} {read : List Bool} {state last : HuffmanState}
    (h : Reading read state) (hbits : huffmanBits bits state = .ok last) :
    Reading (read ++ bits) last := by
  induction bits generalizing read state with
  | nil =>
      cases hbits
      rw [List.append_nil]
      exact h
  | cons bit bits ih =>
      simp only [huffmanBits] at hbits
      cases hbit : huffmanBit state bit with
      | error code =>
          rw [hbit] at hbits
          cases hbits
      | ok next =>
          rw [hbit] at hbits
          have hrest := ih (h.bit hbit) hbits
          rwa [List.append_assoc] at hrest

theorem byteBits_injective {a b : UInt8} (h : byteBits a = byteBits b) : a = b :=
  UInt8.toNat_inj.mp (bitsOf_inj _ _ 8 a.toNat_lt b.toNat_lt h)

theorem flatMap_byteBits_injective {xs ys : List UInt8}
    (h : xs.flatMap byteBits = ys.flatMap byteBits) : xs = ys := by
  induction xs generalizing ys with
  | nil =>
      have hlength := congrArg List.length h
      rw [length_byteBits, length_byteBits, List.length_nil] at hlength
      exact (List.length_eq_zero_iff.mp (by omega)).symm
  | cons x xs ih =>
      cases ys with
      | nil =>
          have hlength := congrArg List.length h
          rw [length_byteBits, length_byteBits, List.length_cons, List.length_nil] at hlength
          omega
      | cons y ys =>
          rw [List.flatMap_cons, List.flatMap_cons] at h
          obtain ⟨hhead, htail⟩ := List.append_inj h (by simp [byteBits])
          rw [byteBits_injective hhead, ih htail]

/-- Octets are accepted only as the encoding of what they stand for. -/
theorem huffmanDecode_accepts {data out : List UInt8} (h : huffmanDecode data = .ok out) :
    data = huffmanEncode out := by
  unfold huffmanDecode at h
  split at h
  · cases h
  · next state hbits =>
      split at h
      · cases h
      · next hpadding =>
          cases h
          obtain ⟨v, hstate, hread⟩ := (reading_start.bits hbits).words
          obtain ⟨k, hk, hencoded⟩ := huffmanEncode_bits state.out
          have hcount : state.bitsSinceLeaf = v.length := congrArg HuffmanState.bitsSinceLeaf hstate
          have hall : state.allOnes = v.all id := congrArg HuffmanState.allOnes hstate
          rw [hcount, hall] at hpadding
          simp only [Bool.or_eq_true, decide_eq_true_eq, Bool.not_eq_true', not_or, not_lt,
            Bool.not_eq_false] at hpadding
          have hones : v = List.replicate v.length true :=
            List.eq_replicate_iff.mpr ⟨rfl, fun b hb => List.all_eq_true.mp hpadding.2 b hb⟩
          have hlength := congrArg List.length hread
          have hencodedLength := congrArg List.length hencoded
          rw [List.nil_append, length_byteBits, List.length_append] at hlength
          rw [length_byteBits, List.length_append, List.length_replicate] at hencodedLength
          have hsame : v.length = k := by omega
          apply flatMap_byteBits_injective
          rw [hencoded, ← hsame, ← hones]
          exact hread

/-- How the encoder spells a string out. -/
def literalOf (text : List UInt8) : Literal :=
  ⟨decide (huffmanEncodedLen text < text.length), text⟩

theorem encodeString_wire (text : List UInt8) : encodeString text = (literalOf text).wire := by
  simp only [encodeString, Literal.wire, Literal.encoded, literalOf]
  split
  · next h => simp [h]
  · next h => simp [h]

/-- The octets a string takes after its length. -/
def wireLength (text : Text) : Nat := min (huffmanEncodedLen (utf8 text)) (utf8 text).length

theorem literalOf_length (text : Text) :
    (literalOf (utf8 text)).encoded.length = wireLength text := by
  unfold wireLength
  by_cases h : huffmanEncodedLen (utf8 text) < (utf8 text).length
  · have hencoded : (literalOf (utf8 text)).encoded = huffmanEncode (utf8 text) :=
      if_pos (decide_eq_true h)
    rw [hencoded, ← huffmanEncodedLen_eq, Nat.min_eq_left (Nat.le_of_lt h)]
  · have hencoded : (literalOf (utf8 text)).encoded = utf8 text :=
      if_neg (fun htrue => h (of_decide_eq_true htrue))
    rw [hencoded, Nat.min_eq_right (Nat.le_of_not_lt h)]

theorem decodeString_encodeString (text : Text) (rest : List UInt8) {maxLength : Nat}
    (hlength : wireLength text ≤ maxLength) (hsmall : wireLength text < 2 ^ 35) :
    decodeString (encodeString (utf8 text) ++ rest) maxLength = .ok (text, rest) := by
  rw [← literalOf_length] at hlength hsmall
  rw [encodeString_wire, decodeString_wire _ rest maxLength hsmall hlength, literalOf, textOf_utf8]

theorem ite_some {c : Prop} [Decidable c] {a b : Option Nat} {index : Nat}
    (h : (if c then a else b) = some index) : (c ∧ a = some index) ∨ b = some index := by
  split at h
  · next hc => exact .inl ⟨hc, h⟩
  · exact .inr h

theorem entered {field : Field} {name value : Text} {index entry : Nat} (hname : field.1 = name)
    (hvalue : field.2 = value) (h : some entry = some index)
    (hentry : 1 ≤ entry ∧ entry ≤ 61 ∧ staticTable[entry]? = some (name, value)) :
    1 ≤ index ∧ index ≤ 61 ∧ staticTable[index]? = some field := by
  obtain rfl := Option.some.inj h
  subst hname hvalue
  exact hentry

theorem staticPairLookup_entry {field : Field} {index : Nat}
    (h : staticPairLookup field = some index) :
    1 ≤ index ∧ index ≤ 61 ∧ staticTable[index]? = some field := by
  rw [staticPairLookup] at h
  rcases ite_some h with ⟨hname, h⟩ | h
  · rcases ite_some h with ⟨hvalue, h⟩ | h
    · exact entered hname hvalue h ⟨by decide, by decide, rfl⟩
    rcases ite_some h with ⟨hvalue, h⟩ | h
    · exact entered hname hvalue h ⟨by decide, by decide, rfl⟩
    cases h
  rcases ite_some h with ⟨hname, h⟩ | h
  · rcases ite_some h with ⟨hvalue, h⟩ | h
    · exact entered hname hvalue h ⟨by decide, by decide, rfl⟩
    rcases ite_some h with ⟨hvalue, h⟩ | h
    · exact entered hname hvalue h ⟨by decide, by decide, rfl⟩
    cases h
  rcases ite_some h with ⟨hname, h⟩ | h
  · rcases ite_some h with ⟨hvalue, h⟩ | h
    · exact entered hname hvalue h ⟨by decide, by decide, rfl⟩
    rcases ite_some h with ⟨hvalue, h⟩ | h
    · exact entered hname hvalue h ⟨by decide, by decide, rfl⟩
    cases h
  rcases ite_some h with ⟨hname, h⟩ | h
  · rcases ite_some h with ⟨hvalue, h⟩ | h
    · exact entered hname hvalue h ⟨by decide, by decide, rfl⟩
    rcases ite_some h with ⟨hvalue, h⟩ | h
    · exact entered hname hvalue h ⟨by decide, by decide, rfl⟩
    rcases ite_some h with ⟨hvalue, h⟩ | h
    · exact entered hname hvalue h ⟨by decide, by decide, rfl⟩
    rcases ite_some h with ⟨hvalue, h⟩ | h
    · exact entered hname hvalue h ⟨by decide, by decide, rfl⟩
    rcases ite_some h with ⟨hvalue, h⟩ | h
    · exact entered hname hvalue h ⟨by decide, by decide, rfl⟩
    rcases ite_some h with ⟨hvalue, h⟩ | h
    · exact entered hname hvalue h ⟨by decide, by decide, rfl⟩
    rcases ite_some h with ⟨hvalue, h⟩ | h
    · exact entered hname hvalue h ⟨by decide, by decide, rfl⟩
    cases h
  rcases ite_some h with ⟨hname, h⟩ | h
  · rcases ite_some h with ⟨hvalue, h⟩ | h
    · exact entered hname hvalue h ⟨by decide, by decide, rfl⟩
    cases h
  cases h

theorem staticNames_entries : ∀ entry ∈ staticNames,
    1 ≤ entry.2 ∧ entry.2 ≤ 61 ∧ (staticTable[entry.2]?).map Prod.fst = some entry.1 := by
  decide

theorem staticNameLookup_entry {name : Text} (h : staticNameLookup name ≠ 0) :
    staticNameLookup name ≤ 61 ∧
      ∃ value, staticTable[staticNameLookup name]? = some (name, value) := by
  unfold staticNameLookup at h ⊢
  cases hfind : staticNames.find? (fun entry => entry.1 == name) with
  | none =>
      rw [hfind] at h
      exact absurd rfl h
  | some entry =>
      have hname : entry.1 = name := by
        have hsome := List.find?_some hfind
        exact beq_iff_eq.mp hsome
      obtain ⟨-, hle, hentry⟩ := staticNames_entries entry (List.mem_of_find?_eq_some hfind)
      obtain ⟨field, hfield, hfst⟩ := Option.map_eq_some_iff.mp hentry
      refine ⟨hle, field.2, ?_⟩
      change staticTable[entry.2]? = some (name, field.2)
      rw [hfield, ← hname, ← hfst]

/-- A field the decoder takes: a lowercase name, and strings that are not over-long. -/
structure Accepted (maxLength : Nat) (field : Field) : Prop where
  name : checkName field.1 = .ok ()
  nameLength : wireLength field.1 ≤ maxLength ∧ wireLength field.1 < 2 ^ 35
  valueLength : wireLength field.2 ≤ maxLength ∧ wireLength field.2 < 2 ^ 35

/-- The scan after one more field. -/
def HeaderScan.taken (scan : HeaderScan) (rest : List UInt8) (field : Field) : HeaderScan :=
  { scan with
    data := rest, total := scan.total + entrySize field, fields := scan.fields ++ [field] }

variable {scan : HeaderScan} {field : Field} {rest : List UInt8} {ms ml : Nat}

theorem scanIndexed_encodeField {index : Nat} (hpair : staticPairLookup field = some index)
    (hdata : scan.data = encodeInteger index 7 128 ++ rest) :
    scanIndexed scan = .ok (scan.taken rest field) := by
  obtain ⟨hpos, hle, hentry⟩ := staticPairLookup_entry hpair
  have hread := decodeInteger_encodeInteger index 7 128 rest (by omega) (by omega) (by omega)
    rfl (by omega)
  have hlookup : lookupIndex scan.entries index = some field := by
    rw [lookupIndex, if_pos hle, hentry]
  simp only [scanIndexed, hdata, hread, if_neg (Nat.not_lt.mpr hpos), hlookup]
  rfl

theorem scanName_encodeField {flag : Nat} (hflag : flag < 256) (hzero : flag % 2 ^ 4 = 0)
    (ha : Accepted ms field)
    (hdata : scan.data = encodeInteger (staticNameLookup field.1) 4 flag ++
      ((if staticNameLookup field.1 = 0 then encodeString (utf8 field.1) else []) ++ rest)) :
    scanName scan 4 ms = .ok (field.1, rest) := by
  by_cases hname : staticNameLookup field.1 = 0
  · rw [if_pos hname, hname] at hdata
    have hread := decodeInteger_encodeInteger 0 4 flag (encodeString (utf8 field.1) ++ rest)
      (by omega) (by omega) hflag hzero (by omega)
    simp only [scanName, hdata, hread, if_true]
    exact decodeString_encodeString field.1 rest ha.nameLength.1 ha.nameLength.2
  · rw [if_neg hname, List.nil_append] at hdata
    obtain ⟨hle, value, hentry⟩ := staticNameLookup_entry hname
    have hread := decodeInteger_encodeInteger (staticNameLookup field.1) 4 flag rest (by omega)
      (by omega) hflag hzero (by omega)
    have hlookup : lookupIndex scan.entries (staticNameLookup field.1) = some (field.1, value) := by
      rw [lookupIndex, if_pos hle, hentry]
    simp only [scanName, hdata, hread, if_neg hname, hlookup]

/-- A field that is written is read back, and nothing is entered into the table. -/
theorem scanStep_encodeField (ha : Accepted ms field)
    (htotal : scan.total + entrySize field ≤ ml) (hdata : scan.data = encodeField field ++ rest) :
    scanStep scan ms ml = .ok (scan.taken rest field) := by
  unfold encodeField at hdata
  cases hpair : staticPairLookup field with
  | some index =>
      simp only [hpair] at hdata
      rw [scanStep_indexed scan index ms ml rest hdata]
      exact scanIndexed_encodeField hpair hdata
  | none =>
      simp only [hpair, List.append_assoc] at hdata
      have hstep : scanStep scan ms ml = scanLiteral scan false ms ml := by
        by_cases hnever : isNeverIndexed field.1
        · rw [if_pos hnever] at hdata
          exact scanStep_literal scan .never _ ms ml _ hdata
        · rw [if_neg hnever] at hdata
          exact scanStep_literal scan .without _ ms ml _ hdata
      have hflag : (if isNeverIndexed field.1 then 16 else 0) < 256 := by split <;> omega
      have hzero : (if isNeverIndexed field.1 then 16 else 0) % 2 ^ 4 = 0 := by split <;> rfl
      have hname := scanName_encodeField hflag hzero ha hdata
      have hvalue := decodeString_encodeString field.2 rest ha.valueLength.1 ha.valueLength.2
      rw [hstep]
      simp only [scanLiteral, Bool.false_eq_true, if_false, hname, hvalue, ha.name]
      rw [if_neg (Nat.not_lt.mpr htotal)]
      rfl

theorem encodeInteger_ne_nil (value prefixBits first : Nat) :
    encodeInteger value prefixBits first ≠ [] := by
  unfold encodeInteger
  simp only
  split <;> exact List.cons_ne_nil _ _

theorem encodeField_ne_nil (field : Field) : encodeField field ≠ [] := by
  unfold encodeField
  intro hnil
  split at hnil
  · exact encodeInteger_ne_nil _ _ _ hnil
  · exact encodeInteger_ne_nil _ _ _
      (List.append_eq_nil_iff.mp (List.append_eq_nil_iff.mp hnil).1).1

theorem scanBlock_encodeBlock {fields : List Field} {n : Nat} (ha : ∀ f ∈ fields, Accepted ms f)
    (htotal : scan.total + total entrySize fields ≤ ml) (hdata : scan.data = encodeBlock fields)
    (hn : fields.length ≤ n) :
    scanBlock ms ml n scan = .ok { scan with
      data := [], total := scan.total + total entrySize fields, fields := scan.fields ++ fields } := by
  induction fields generalizing scan n with
  | nil =>
      have hnil : scan.data = [] := hdata
      have hsame : scan = { scan with
          data := [], total := scan.total + 0, fields := scan.fields ++ [] } := by
        rw [List.append_nil, ← hnil]
        rfl
      change _ = Except.ok { scan with
        data := [], total := scan.total + 0, fields := scan.fields ++ [] }
      rw [← hsame]
      cases n with
      | zero => rfl
      | succ n => simp [scanBlock, hnil]
  | cons field fields ih =>
      cases n with
      | zero => exact absurd hn (Nat.not_succ_le_zero _)
      | succ n =>
          simp only [total] at htotal
          have hsplit : scan.data = encodeField field ++ encodeBlock fields := hdata
          have hmore : scan.data.isEmpty = false := by
            rw [hsplit, List.isEmpty_eq_false_iff]
            exact fun hnil => encodeField_ne_nil field (List.append_eq_nil_iff.mp hnil).1
          have hstep : scanStep scan ms ml = .ok (scan.taken (encodeBlock fields) field) :=
            scanStep_encodeField (ha field List.mem_cons_self) (by omega) hsplit
          rw [scanBlock_ok hmore hstep, ih
            (fun f hf => ha f (List.mem_cons_of_mem _ hf))
            (by simp only [HeaderScan.taken]; omega) rfl (Nat.le_of_succ_le_succ hn)]
          simp only [HeaderScan.taken, total, List.append_assoc, List.singleton_append,
            Nat.add_assoc]

theorem length_le_encodeBlock (fields : List Field) :
    fields.length ≤ (encodeBlock fields).length := by
  induction fields with
  | nil => exact Nat.le_refl 0
  | cons field fields ih =>
      have hpos := List.length_pos_iff.mpr (encodeField_ne_nil field)
      unfold encodeBlock at ih ⊢
      rw [List.flatMap_cons, List.length_append, List.length_cons]
      omega

/-- A block decodes to its fields, and leaves the decoder as it was. -/
theorem decode_encodeBlock (decoder : Decoder) {fields : List Field}
    (ha : ∀ f ∈ fields, Accepted decoder.maxStringLength f)
    (htotal : total entrySize fields ≤ decoder.maxHeaderListSize) :
    decoder.decode (encodeBlock fields) = .ok (fields, decoder) := by
  have hstart : (⟨encodeBlock fields, decoder.table.entries, decoder.table.capacity,
      decoder.table.size, 0, [], []⟩ : HeaderScan).data = encodeBlock fields := rfl
  have hscan := scanBlock_encodeBlock ha (by simpa using htotal) hstart
    (length_le_encodeBlock fields)
  rw [Decoder.decode_ok hscan]
  simp

/-- What the codec writes it reads back: blocks, integers and strings. -/
theorem codec_roundTrips :
    (∀ (decoder : Decoder) (fields : List Field),
      (∀ f ∈ fields, Accepted decoder.maxStringLength f) →
      total entrySize fields ≤ decoder.maxHeaderListSize →
        decoder.decode (encodeBlock fields) = .ok (fields, decoder)) ∧
    (∀ (value prefixBits first : Nat) (rest : List UInt8), value < 2 ^ 32 → 1 ≤ prefixBits →
      prefixBits ≤ 8 → first < 256 → first % 2 ^ prefixBits = 0 →
        decodeInteger (encodeInteger value prefixBits first ++ rest) prefixBits =
          .ok (value, rest)) ∧
    (∀ data : List UInt8, huffmanDecode (huffmanEncode data) = .ok data ∧
      huffmanEncodedLen data = (huffmanEncode data).length) ∧
    (∀ data out : List UInt8, huffmanDecode data = .ok out → data = huffmanEncode out) := by
  refine ⟨fun decoder fields ha htotal => decode_encodeBlock decoder ha htotal, ?_, ?_, ?_⟩
  · intro value prefixBits first rest hvalue hpos hle hfirst hflag
    exact decodeInteger_encodeInteger value prefixBits first rest hle hpos hfirst hflag (by omega)
  · exact fun data => ⟨huffmanDecode_huffmanEncode data, huffmanEncodedLen_eq data⟩
  · exact fun data out h => huffmanDecode_accepts h

/-- A request's fields, one of them from the static table, and an integer of three octets. -/
theorem codec_roundTrips_request :
    Decoder.new.decode (encodeBlock [(":path".toList, "/".toList), ("x".toList, "é".toList)]) =
        .ok ([(":path".toList, "/".toList), ("x".toList, "é".toList)], Decoder.new) ∧
      decodeInteger (encodeInteger 1337 5 32 ++ []) 5 = .ok (1337, []) := by
  refine ⟨codec_roundTrips.1 Decoder.new _ (fun f hf => ?_) (by decide),
    codec_roundTrips.2.1 1337 5 32 [] (by decide) (by decide) (by decide) (by decide) (by decide)⟩
  simp only [List.mem_cons, List.not_mem_nil, or_false] at hf
  rcases hf with rfl | rfl
  · exact ⟨by rfl, by decide, by decide⟩
  · exact ⟨by rfl, by decide, by decide⟩

end Zuri.Http.H2
