import Zuri.Http.H2.HpackWire

/-!
The native decoder over a block of valid representations. Its copy of the table moves
as the protocol's table does, and it gives back the fields the block means, unless a
literal takes the list over the limit.
-/

namespace Zuri.Http.H2

open Eviction

/-- The copy of the table holds the entries of the protocol's table. -/
structure Scanning (scan : HeaderScan) (table : HeaderTable) : Prop where
  entries : scan.entries.map octetField = table.entries
  capacity : scan.capacity = table.capacity
  bound : table.capacity ≤ maxTableCapacity
  size : scan.size = total entrySize scan.entries
  fits : scan.size ≤ scan.capacity

theorem fieldSize_octetField (field : Field) : fieldSize (octetField field) = entrySize field := rfl

theorem total_entrySize (entries : List Field) :
    total entrySize entries = total fieldSize (entries.map octetField) :=
  (total_map octetField fieldSize entries).symm

theorem keep_entrySize (room : Nat) (entries : List Field) :
    (keep entrySize room entries).map octetField =
      keep fieldSize room (entries.map octetField) :=
  (keep_map octetField fieldSize room entries).symm

theorem lookupIndex_octets (entries : List Field) (table : HeaderTable) (index : Nat)
    (h : entries.map octetField = table.entries) (hpos : 1 ≤ index) :
    table.lookup index = (lookupIndex entries index).map octetField := by
  unfold HeaderTable.lookup lookupIndex
  rw [if_neg (by omega)]
  split
  · rfl
  · rw [← h, List.getElem?_map]

theorem Scanning.index_lt {scan : HeaderScan} {table : HeaderTable} (h : Scanning scan table)
    {index : Nat} {field : OctetField} (hl : table.lookup index = some field) :
    1 ≤ index ∧ index < 2 ^ 35 := by
  unfold HeaderTable.lookup at hl
  split at hl
  · cases hl
  · split at hl
    · omega
    · have hlen : index - 62 < table.entries.length := (List.getElem?_eq_some_iff.mp hl).1
      have hcount : table.entries.length ≤ total fieldSize table.entries :=
        length_le_total _ (fun a => by unfold fieldSize; omega)
      have hsize := h.size
      rw [total_entrySize, h.entries] at hsize
      have hfits := h.fits
      have hcap := h.capacity
      have hbound := h.bound
      unfold maxTableCapacity at hbound
      omega

theorem wrappingSub_eq (a b : Nat) (hb : b ≤ a) (ha : a < 2 ^ 64) : wrappingSub a b = a - b := by
  unfold wrappingSub
  omega

theorem dropNative_room (scan : HeaderScan) (exceeds : Nat → Bool) (room : Nat)
    (hover : ∀ size ≤ 2 ^ 64 - 1, exceeds size = decide (room < size))
    (hsize : scan.size = total entrySize scan.entries) (hbound : scan.size ≤ 2 ^ 64 - 1) :
    dropNative exceeds scan = { scan with
      entries := keep entrySize room scan.entries,
      size := total entrySize (keep entrySize room scan.entries) } := by
  unfold dropNative
  rw [hsize, evict_eq_keep entrySize exceeds (fun size field => wrappingSub size (entrySize field))
    (2 ^ 64 - 1) room scan.entries hover
    (fun size a hle hlt => wrappingSub_eq size _ hle (by omega)) (hsize ▸ hbound)]

theorem Scanning.resize {scan : HeaderScan} {table : HeaderTable} (h : Scanning scan table)
    (rest : List UInt8) (capacity : Nat) (hc : capacity ≤ maxTableCapacity) :
    dropNative (fun size => decide (capacity < size))
        { scan with data := rest, capacity := capacity } =
      { scan with
        data := rest, capacity := capacity, entries := keep entrySize capacity scan.entries,
        size := total entrySize (keep entrySize capacity scan.entries) } ∧
      Scanning { scan with
        data := rest, capacity := capacity, entries := keep entrySize capacity scan.entries,
        size := total entrySize (keep entrySize capacity scan.entries) }
        (table.resize capacity) := by
  have hfits := h.fits
  have hcap := h.capacity
  have hbound := h.bound
  unfold maxTableCapacity at hbound
  refine ⟨?_, ?_⟩
  · exact dropNative_room { scan with data := rest, capacity := capacity } _ capacity
      (fun _ _ => rfl) h.size (by simp only; omega)
  · exact
      { entries := by
          simp only [HeaderTable.resize]
          rw [keep_entrySize, h.entries]
        capacity := rfl
        bound := hc
        size := rfl
        fits := total_keep_le entrySize capacity scan.entries }

theorem Scanning.insert {scan : HeaderScan} {table : HeaderTable} (h : Scanning scan table)
    (field : Field) (hsmall : entrySize field < 2 ^ 63) :
    addNative scan field = { scan with
        entries := keep entrySize scan.capacity (field :: scan.entries),
        size := total entrySize (keep entrySize scan.capacity (field :: scan.entries)),
        added := scan.added ++ (if entrySize field ≤ scan.capacity then [field] else []) } ∧
      Scanning (addNative scan field) (table.insert (octetField field)) := by
  have hfits := h.fits
  have hcap := h.capacity
  have hbound := h.bound
  unfold maxTableCapacity at hbound
  have hstate : addNative scan field = { scan with
      entries := keep entrySize scan.capacity (field :: scan.entries),
      size := total entrySize (keep entrySize scan.capacity (field :: scan.entries)),
      added := scan.added ++ (if entrySize field ≤ scan.capacity then [field] else []) } := by
    unfold addNative
    by_cases hc : entrySize field ≤ scan.capacity
    · have hdrop := evict_eq_keep entrySize
        (fun size => decide (scan.capacity < wrappingAdd size (entrySize field)))
        (fun size field => wrappingSub size (entrySize field)) 4096
        (scan.capacity - entrySize field) scan.entries
        (fun size hs => by
          have hadd : wrappingAdd size (entrySize field) = size + entrySize field :=
            Nat.mod_eq_of_lt (by omega)
          simp only [hadd]
          exact decide_eq_decide.mpr (by omega))
        (fun size a hle hlt => wrappingSub_eq size _ hle (by omega))
        (by rw [← h.size]; omega)
      have hleft := total_keep_le entrySize (scan.capacity - entrySize field) scan.entries
      have hadd : wrappingAdd (total entrySize
          (keep entrySize (scan.capacity - entrySize field) scan.entries)) (entrySize field) =
          entrySize field + total entrySize
            (keep entrySize (scan.capacity - entrySize field) scan.entries) := by
        unfold wrappingAdd
        rw [Nat.mod_eq_of_lt (by omega), Nat.add_comm]
      simp only [dropNative, h.size, hdrop, if_pos hc, keep, total, hadd]
    · have hdrop := evict_all entrySize
        (fun size => decide (scan.capacity < wrappingAdd size (entrySize field)))
        (fun size field => wrappingSub size (entrySize field)) 4096 scan.entries
        (fun size hs => by
          have hadd : wrappingAdd size (entrySize field) = size + entrySize field :=
            Nat.mod_eq_of_lt (by omega)
          simp only [hadd]
          exact decide_eq_true (by omega))
        (fun size a hle hlt => wrappingSub_eq size _ hle (by omega))
        (by rw [← h.size]; omega)
      simp only [dropNative, h.size, hdrop, if_neg hc, keep, total, List.append_nil]
  refine ⟨hstate, ?_⟩
  rw [hstate]
  exact
    { entries := by
        simp only [HeaderTable.insert]
        rw [keep_entrySize, List.map_cons, h.entries, hcap]
      capacity := hcap
      bound := h.bound
      size := rfl
      fits := total_keep_le entrySize _ _ }

theorem encodeInteger_head (value prefixBits first : Nat) (rest : List UInt8) :
    ∃ low tail, low < 2 ^ prefixBits ∧
      encodeInteger value prefixBits first ++ rest = UInt8.ofNat (first ||| low) :: tail := by
  have hpos := Nat.two_pow_pos prefixBits
  unfold encodeInteger
  simp only
  split
  · exact ⟨value, _, by omega, rfl⟩
  · exact ⟨2 ^ prefixBits - 1, _, by omega, rfl⟩

theorem indexed_flags : ∀ low < 2 ^ 7, UInt8.ofNat (128 ||| low) &&& 128 ≠ 0 := by decide

theorem sizeUpdate_flags : ∀ low < 2 ^ 5, UInt8.ofNat (32 ||| low) &&& 128 = 0 ∧
    UInt8.ofNat (32 ||| low) &&& 32 ≠ 0 ∧ UInt8.ofNat (32 ||| low) &&& 64 = 0 := by decide

theorem incremental_flags : ∀ low < 2 ^ 6, UInt8.ofNat (64 ||| low) &&& 128 = 0 ∧
    UInt8.ofNat (64 ||| low) &&& 64 ≠ 0 := by decide

theorem without_flags : ∀ low < 2 ^ 4, UInt8.ofNat (0 ||| low) &&& 128 = 0 ∧
    UInt8.ofNat (0 ||| low) &&& 32 = 0 ∧ UInt8.ofNat (0 ||| low) &&& 64 = 0 := by decide

theorem never_flags : ∀ low < 2 ^ 4, UInt8.ofNat (16 ||| low) &&& 128 = 0 ∧
    UInt8.ofNat (16 ||| low) &&& 32 = 0 ∧ UInt8.ofNat (16 ||| low) &&& 64 = 0 := by decide

/-- The representation a first octet announces. -/
theorem scanStep_indexed (scan : HeaderScan) (index ms ml : Nat) (rest : List UInt8)
    (h : scan.data = encodeInteger index 7 128 ++ rest) :
    scanStep scan ms ml = scanIndexed scan := by
  obtain ⟨low, tail, hlow, heq⟩ := encodeInteger_head index 7 128 rest
  unfold scanStep
  rw [h, heq]
  simp only
  rw [if_pos (indexed_flags low hlow)]

theorem scanStep_sizeUpdate (scan : HeaderScan) (capacity ms ml : Nat) (rest : List UInt8)
    (h : scan.data = encodeInteger capacity 5 32 ++ rest) :
    scanStep scan ms ml = scanSizeUpdate scan := by
  obtain ⟨low, tail, hlow, heq⟩ := encodeInteger_head capacity 5 32 rest
  obtain ⟨h128, h32, h64⟩ := sizeUpdate_flags low hlow
  unfold scanStep
  rw [h, heq]
  simp only
  rw [if_neg (not_not.mpr h128), if_pos ⟨h32, h64⟩]

theorem scanStep_literal (scan : HeaderScan) (indexing : Indexing) (index ms ml : Nat)
    (rest : List UInt8)
    (h : scan.data = encodeInteger index indexing.prefixBits indexing.flag ++ rest) :
    scanStep scan ms ml = scanLiteral scan (decide (indexing = .incremental)) ms ml := by
  obtain ⟨low, tail, hlow, heq⟩ :=
    encodeInteger_head index indexing.prefixBits indexing.flag rest
  rw [heq] at h
  unfold scanStep
  cases indexing with
  | incremental =>
      obtain ⟨h128, h64⟩ := incremental_flags low hlow
      change scan.data = UInt8.ofNat (64 ||| low) :: tail at h
      rw [h]
      simp only
      rw [if_neg (not_not.mpr h128), if_neg (fun hc => h64 hc.2), decide_eq_true h64]
      rfl
  | without =>
      obtain ⟨h128, h32, h64⟩ := without_flags low hlow
      change scan.data = UInt8.ofNat (0 ||| low) :: tail at h
      rw [h]
      simp only
      rw [if_neg (not_not.mpr h128), if_neg (fun hc => hc.1 h32),
        decide_eq_false (not_not.mpr h64)]
      rfl
  | never =>
      obtain ⟨h128, h32, h64⟩ := never_flags low hlow
      change scan.data = UInt8.ofNat (16 ||| low) :: tail at h
      rw [h]
      simp only
      rw [if_neg (not_not.mpr h128), if_neg (fun hc => hc.1 h32),
        decide_eq_false (not_not.mpr h64)]
      rfl

/-- A string literal the decoder can hold: text, and not over-long on the wire. -/
def Literal.Legible (maxLength : Nat) (literal : Literal) : Prop :=
  IsText literal.octets ∧ literal.encoded.length ≤ maxLength

/-- A representation whose strings the decoder can hold and whose name may name a field. -/
def Representation.Legible (maxLength : Nat) (table : HeaderTable) : Representation → Prop
  | .indexed _ | .sizeUpdate _ => True
  | .literal _ name value =>
      value.Legible maxLength ∧
        (∀ literal, name = .text literal → literal.Legible maxLength) ∧
        ∀ octets, name.resolve table = some octets → checkName (textOf octets) = .ok ()

def Representation.isLiteral : Representation → Bool
  | .literal _ _ _ => true
  | .indexed _ | .sizeUpdate _ => false

/-- The entry a representation makes, unless it is larger than the table. -/
def Representation.enters (table : HeaderTable) : Representation → List OctetField
  | .literal .incremental name value =>
      match name.resolve table with
      | some name =>
          if fieldSize (name, value.octets) ≤ table.capacity then [(name, value.octets)] else []
      | none => []
  | _ => []

/-- The decoder has gone over a representation. -/
structure Scanned (before : HeaderScan) (table : HeaderTable)
    (fields entered : List OctetField) (rest : List UInt8) (after : HeaderScan) : Prop where
  scanning : Scanning after table
  data : after.data = rest
  read : after.fields.map octetField = before.fields.map octetField ++ fields
  listed : after.total = before.total + total fieldSize fields
  added : after.added.map octetField = before.added.map octetField ++ entered

theorem Literal.Legible.length {maxLength : Nat} {literal : Literal}
    (h : literal.Legible maxLength) : literal.octets.length ≤ 8 * maxLength := by
  have hlen := h.2
  unfold Literal.encoded at hlen
  split at hlen
  · have := length_le_huffmanEncode literal.octets
    omega
  · omega

theorem staticTable_names : ∀ field ∈ staticTable, (utf8 field.1).length ≤ 64 := by
  have h : (staticTable.all fun field => decide ((utf8 field.1).length ≤ 64)) = true := by
    rfl
  intro field hf
  simpa using List.all_eq_true.mp h field hf

theorem Scanning.name_length {scan : HeaderScan} {table : HeaderTable} (h : Scanning scan table)
    {index : Nat} {field : OctetField} (hl : table.lookup index = some field) :
    field.1.length ≤ 4096 := by
  unfold HeaderTable.lookup at hl
  split at hl
  · cases hl
  · split at hl
    · obtain ⟨entry, he, rfl⟩ := Option.map_eq_some_iff.mp hl
      have := staticTable_names entry (List.mem_of_getElem? he)
      exact Nat.le_trans this (by omega)
    · have hcost : fieldSize field ≤ total fieldSize table.entries :=
        cost_le_total _ _ (List.mem_of_getElem? hl)
      have hsize := h.size
      rw [total_entrySize, h.entries] at hsize
      have hfits := h.fits
      have hcap := h.capacity
      have hbound := h.bound
      unfold maxTableCapacity at hbound
      have hfield : field.1.length ≤ fieldSize field := by
        unfold fieldSize
        omega
      omega

/-- The name of a literal, with what is left to read after it. -/
theorem Scanning.name {scan : HeaderScan} {table : HeaderTable} (h : Scanning scan table)
    (indexing : Indexing) (name : LiteralName) (ms : Nat) (rest octets : List UInt8)
    (hms : ms ≤ 2 ^ 20)
    (hdata : scan.data = name.wire indexing ++ rest)
    (hlegible : ∀ literal, name = .text literal → literal.Legible ms)
    (hresolve : name.resolve table = some octets) :
    (∃ text, scanName scan indexing.prefixBits ms = .ok (text, rest) ∧ utf8 text = octets) ∧
      octets.length ≤ 2 ^ 23 := by
  have hp : indexing.prefixBits ≤ 8 ∧ 1 ≤ indexing.prefixBits := by cases indexing <;> decide
  have hf : indexing.flag < 256 ∧ indexing.flag % 2 ^ indexing.prefixBits = 0 := by
    cases indexing <;> decide
  cases name with
  | entry index =>
      obtain ⟨field, hl, rfl⟩ := Option.map_eq_some_iff.mp hresolve
      obtain ⟨hpos, hlt⟩ := h.index_lt hl
      have hread := decodeInteger_encodeInteger index indexing.prefixBits indexing.flag rest hp.1
        hp.2 hf.1 hf.2 hlt
      have hlook := lookupIndex_octets scan.entries table index h.entries hpos
      rw [hl] at hlook
      obtain ⟨entry, he, hoctets⟩ := Option.map_eq_some_iff.mp hlook.symm
      refine ⟨⟨entry.1, ?_, congrArg Prod.fst hoctets⟩, ?_⟩
      · unfold scanName
        rw [hdata]
        simp only [LiteralName.wire]
        rw [hread]
        simp only [he]
        rw [if_neg (by omega)]
      · exact Nat.le_trans (h.name_length hl) (by omega)
  | text literal =>
      have hleg := hlegible literal rfl
      have hsame : literal.octets = octets := Option.some.inj hresolve
      have hread := decodeInteger_encodeInteger 0 indexing.prefixBits indexing.flag
        (literal.wire ++ rest) hp.1 hp.2 hf.1 hf.2 (by omega)
      refine ⟨⟨textOf literal.octets, ?_, ?_⟩, ?_⟩
      · unfold scanName
        rw [hdata]
        simp only [LiteralName.wire, List.append_assoc]
        rw [hread]
        simp only [if_true]
        exact decodeString_wire literal rest ms (Nat.lt_of_le_of_lt hleg.2 (by omega)) hleg.2
      · rw [utf8_textOf _ hleg.1, hsame]
      · have := hleg.length
        rw [← hsame]
        omega

section Steps

variable {scan : HeaderScan} {table next : HeaderTable}

theorem scanStep_wire_indexed (h : Scanning scan table) (index : Nat)
    (rest : List UInt8) (fields : List OctetField) (ms ml : Nat)
    (hdata : scan.data = (Representation.indexed index).wire ++ rest)
    (happly : (Representation.indexed index).apply table = some (next, fields)) :
    ∃ after, Scanned scan next fields ((Representation.indexed index).enters table) rest after ∧
      scanStep scan ms ml =
        if (Representation.indexed index).isLiteral = true ∧ ml < after.total then
          .error s!"decoded header list exceeds {ml} bytes"
        else .ok after := by
  obtain ⟨field, hl, heq⟩ := Option.map_eq_some_iff.mp happly
  cases heq
  obtain ⟨hpos, hlt⟩ := h.index_lt hl
  have hread := decodeInteger_encodeInteger index 7 128 rest (by omega) (by omega) (by omega)
    rfl hlt
  have hlook := lookupIndex_octets scan.entries table index h.entries hpos
  rw [hl] at hlook
  obtain ⟨entry, he, hoctets⟩ := Option.map_eq_some_iff.mp hlook.symm
  refine ⟨{ scan with
    data := rest, total := scan.total + entrySize entry,
    fields := scan.fields ++ [entry] }, ?_, ?_⟩
  · exact
      { scanning := ⟨h.entries, h.capacity, h.bound, h.size, h.fits⟩
        data := rfl
        read := by simp [hoctets]
        listed := by simp [total, ← hoctets, fieldSize_octetField]
        added := by simp [Representation.enters] }
  · rw [scanStep_indexed scan index ms ml rest hdata]
    have hdata' : scan.data = encodeInteger index 7 128 ++ rest := hdata
    unfold scanIndexed
    rw [hdata', hread]
    simp only [he]
    rw [if_neg (by omega)]
    simp [Representation.isLiteral]

theorem scanStep_wire_sizeUpdate (h : Scanning scan table) (capacity : Nat)
    (rest : List UInt8) (fields : List OctetField) (ms ml : Nat)
    (hdata : scan.data = (Representation.sizeUpdate capacity).wire ++ rest)
    (happly : (Representation.sizeUpdate capacity).apply table = some (next, fields)) :
    ∃ after, Scanned scan next fields ((Representation.sizeUpdate capacity).enters table) rest after ∧
      scanStep scan ms ml =
        if (Representation.sizeUpdate capacity).isLiteral = true ∧ ml < after.total then
          .error s!"decoded header list exceeds {ml} bytes"
        else .ok after := by
  unfold Representation.apply at happly
  simp only at happly
  split at happly
  · rename_i hc
    cases happly
    have hc' : capacity ≤ 4096 := hc
    have hread := decodeInteger_encodeInteger capacity 5 32 rest (by omega) (by omega)
      (by omega) rfl (by omega)
    obtain ⟨hdrop, hnext⟩ := h.resize rest capacity hc
    refine ⟨{ scan with
      data := rest, capacity := capacity, entries := keep entrySize capacity scan.entries,
      size := total entrySize (keep entrySize capacity scan.entries) }, ?_, ?_⟩
    · exact
        { scanning := hnext
          data := rfl
          read := by simp
          listed := by simp [total]
          added := by simp [Representation.enters] }
    · rw [scanStep_sizeUpdate scan capacity ms ml rest hdata]
      have hdata' : scan.data = encodeInteger capacity 5 32 ++ rest := hdata
      unfold scanSizeUpdate
      rw [hdata', hread]
      have hno : ¬ (decide (scan.capacity < capacity) && decide (4096 < capacity)) = true := by
        simp
        omega
      simp only [if_neg hno]
      rw [hdrop]
      simp only [Representation.isLiteral, Bool.false_eq_true, false_and, if_false]
  · cases happly

theorem scanStep_wire_literal (h : Scanning scan table) (indexing : Indexing) (name : LiteralName)
    (value : Literal)
    (rest : List UInt8) (fields : List OctetField) (ms ml : Nat)
    (hms : ms ≤ 2 ^ 20) (hlegible : (Representation.literal indexing name value).Legible ms table)
    (hdata : scan.data = (Representation.literal indexing name value).wire ++ rest)
    (happly : (Representation.literal indexing name value).apply table = some (next, fields)) :
    ∃ after, Scanned scan next fields ((Representation.literal indexing name value).enters table) rest after ∧
      scanStep scan ms ml =
        if (Representation.literal indexing name value).isLiteral = true ∧ ml < after.total then
          .error s!"decoded header list exceeds {ml} bytes"
        else .ok after := by
  obtain ⟨octets, hresolve, heq⟩ := Option.map_eq_some_iff.mp happly
  cases heq
  obtain ⟨hvalue, hname, hcheck⟩ := hlegible
  have hsplit : scan.data = name.wire indexing ++ (value.wire ++ rest) := by
    rw [hdata, Representation.wire, List.append_assoc]
  have hhead : ∃ index tail, scan.data =
      encodeInteger index indexing.prefixBits indexing.flag ++ tail := by
    rw [hsplit]
    cases name with
    | entry index => exact ⟨index, _, rfl⟩
    | text literal => exact ⟨0, _, List.append_assoc _ _ _⟩
  obtain ⟨index, tail, hfirst⟩ := hhead
  obtain ⟨⟨text, hscan, htext⟩, hlength⟩ :=
    h.name indexing name ms (value.wire ++ rest) octets hms hsplit hname hresolve
  have hstring := decodeString_wire value rest ms
    (Nat.lt_of_le_of_lt hvalue.2 (by omega)) hvalue.2
  have hok : checkName text = .ok () := by
    have := hcheck octets hresolve
    rwa [← htext, textOf_utf8] at this
  have hoctets : octetField (text, textOf value.octets) = (octets, value.octets) := by
    simp only [octetField, htext, utf8_textOf _ hvalue.1]
  have hvlen := hvalue.length
  have hsize : entrySize (text, textOf value.octets) < 2 ^ 63 := by
    rw [← fieldSize_octetField, hoctets]
    unfold fieldSize
    simp only
    omega
  have hwidth : (if decide (indexing = Indexing.incremental) = true then 6 else 4) =
      indexing.prefixBits := by cases indexing <;> rfl
  have hbase : Scanning { scan with
      data := rest, total := scan.total + entrySize (text, textOf value.octets),
      fields := scan.fields ++ [(text, textOf value.octets)] } table :=
    ⟨h.entries, h.capacity, h.bound, h.size, h.fits⟩
  obtain ⟨hadd, hinserted⟩ := hbase.insert (text, textOf value.octets) hsize
  rw [hoctets] at hinserted
  refine ⟨if decide (indexing = Indexing.incremental) = true then
    addNative { scan with
      data := rest, total := scan.total + entrySize (text, textOf value.octets),
      fields := scan.fields ++ [(text, textOf value.octets)] } (text, textOf value.octets)
    else { scan with
      data := rest, total := scan.total + entrySize (text, textOf value.octets),
      fields := scan.fields ++ [(text, textOf value.octets)] }, ?_, ?_⟩
  · by_cases hi : indexing = .incremental
    · subst hi
      simp only [decide_true, if_true]
      refine ⟨hinserted, ?_, ?_, ?_, ?_⟩
      · rw [hadd]
      · rw [hadd]
        simp [hoctets]
      · rw [hadd]
        simp [total, ← fieldSize_octetField, hoctets]
      · rw [hadd]
        simp only [Representation.enters, hresolve, List.map_append]
        rw [← fieldSize_octetField, hoctets, h.capacity]
        split
        · simp [hoctets]
        · rfl
    · have henters : (Representation.literal indexing name value).enters table = [] := by
        cases indexing with
        | incremental => exact absurd rfl hi
        | without => rfl
        | never => rfl
      simp only [hi, decide_false, Bool.false_eq_true, if_false]
      refine ⟨hbase, rfl, ?_, ?_, ?_⟩
      · simp [hoctets]
      · simp [total, ← fieldSize_octetField, hoctets]
      · simp [henters]
  · rw [scanStep_literal scan indexing index ms ml tail hfirst]
    unfold scanLiteral
    rw [hwidth, hscan]
    simp only [hstring, hok]
    simp only [Representation.isLiteral, true_and]

end Steps

theorem scanStep_wire {scan : HeaderScan} {table next : HeaderTable} (h : Scanning scan table)
    (rep : Representation) (rest : List UInt8) (fields : List OctetField) (ms ml : Nat)
    (hms : ms ≤ 2 ^ 20) (hdata : scan.data = rep.wire ++ rest) (hlegible : rep.Legible ms table)
    (happly : rep.apply table = some (next, fields)) :
    ∃ after, Scanned scan next fields (rep.enters table) rest after ∧
      scanStep scan ms ml =
        if rep.isLiteral = true ∧ ml < after.total then
          .error s!"decoded header list exceeds {ml} bytes"
        else .ok after := by
  cases rep with
  | indexed index => exact scanStep_wire_indexed h index rest fields ms ml hdata happly
  | sizeUpdate capacity => exact scanStep_wire_sizeUpdate h capacity rest fields ms ml hdata happly
  | literal indexing name value =>
      exact scanStep_wire_literal h indexing name value rest fields ms ml hms hlegible hdata happly

end Zuri.Http.H2
