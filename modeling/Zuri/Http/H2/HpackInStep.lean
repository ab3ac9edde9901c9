import Zuri.Http.H2.HpackScan

/-!
A whole block. The table of the connection is not the copy the block was decoded over:
it replays the last capacity and the entries added. The two agree where the entries
are of one-octet characters and what the protocol's table holds at the end of the
block is all that fits it then.
-/

namespace Zuri.Http.H2

open Eviction

/-- A condition on every representation of a block, at the table it is applied to. -/
def EveryRep (P : HeaderTable → Representation → Prop) :
    HeaderTable → List Representation → Prop
  | _, [] => True
  | table, rep :: reps =>
      P table rep ∧ ∀ next fields, rep.apply table = some (next, fields) → EveryRep P next reps

/-- The entries a block makes, the oldest first. -/
def entersAll (table : HeaderTable) : List Representation → List OctetField
  | [] => []
  | rep :: reps =>
      rep.enters table ++
        match rep.apply table with
        | some (next, _) => entersAll next reps
        | none => []

/-- Whether the list is within the limit after every literal. -/
def withinLimit (limit : Nat) (table : HeaderTable) : List Representation → Nat → Bool
  | [], _ => true
  | rep :: reps, listed =>
      match rep.apply table with
      | some (next, fields) =>
          (!rep.isLiteral || decide (listed + total fieldSize fields ≤ limit)) &&
            withinLimit limit next reps (listed + total fieldSize fields)
      | none => true

theorem Representation.wire_ne_nil (rep : Representation) : rep.wire ≠ [] := by
  have hint : ∀ value prefixBits first, encodeInteger value prefixBits first ≠ [] := by
    intro value prefixBits first
    unfold encodeInteger
    simp only
    split <;> exact List.cons_ne_nil _ _
  cases rep with
  | indexed index => exact hint _ _ _
  | sizeUpdate capacity => exact hint _ _ _
  | literal indexing name value =>
      intro he
      have hname := (List.append_eq_nil_iff.mp he).1
      cases name with
      | entry index => exact hint _ _ _ hname
      | text literal => exact hint _ _ _ (List.append_eq_nil_iff.mp hname).1

theorem length_le_wireBlock (reps : List Representation) :
    reps.length ≤ (wireBlock reps).length := by
  induction reps with
  | nil => exact Nat.le_refl 0
  | cons rep reps ih =>
      have hpos := List.length_pos_iff.mpr rep.wire_ne_nil
      unfold wireBlock at ih ⊢
      rw [List.flatMap_cons, List.length_append, List.length_cons]
      omega

theorem scanBlock_error {scan : HeaderScan} {ms ml n : Nat} {e : String}
    (hmore : scan.data.isEmpty = false) (hs : scanStep scan ms ml = .error e) :
    scanBlock ms ml (n + 1) scan = .error e := by
  simp [scanBlock, hmore, hs]

theorem scanBlock_ok {scan next : HeaderScan} {ms ml n : Nat}
    (hmore : scan.data.isEmpty = false) (hs : scanStep scan ms ml = .ok next) :
    scanBlock ms ml (n + 1) scan = scanBlock ms ml n next := by
  simp [scanBlock, hmore, hs]

theorem scanBlock_wire (reps : List Representation) {scan : HeaderScan}
    {table last : HeaderTable} (h : Scanning scan table) (fields : List OctetField)
    (ms ml n : Nat) (hms : ms ≤ 2 ^ 20) (hdata : scan.data = wireBlock reps)
    (hlegible : EveryRep (fun table rep => rep.Legible ms table) table reps)
    (happly : applyAll table reps = some (last, fields)) (hn : reps.length ≤ n) :
    (withinLimit ml table reps scan.total = false ∧ ∃ e, scanBlock ms ml n scan = .error e) ∨
      (withinLimit ml table reps scan.total = true ∧
        ∃ after, scanBlock ms ml n scan = .ok after ∧
          Scanned scan last fields (entersAll table reps) [] after) := by
  induction reps generalizing scan table fields n with
  | nil =>
      cases happly
      refine .inr ⟨rfl, scan, ?_, ?_⟩
      · cases n with
        | zero => rfl
        | succ n => simp [scanBlock, hdata, wireBlock]
      · exact
          { scanning := h
            data := hdata
            read := by simp
            listed := by simp [total]
            added := by simp [entersAll] }
  | cons rep reps ih =>
      cases n with
      | zero => cases hn
      | succ n =>
          simp only [applyAll] at happly
          cases hr : rep.apply table with
          | none => simp [hr] at happly
          | some result =>
              obtain ⟨next, first⟩ := result
              simp only [hr] at happly
              obtain ⟨⟨_, more⟩, hrest, heq⟩ := Option.map_eq_some_iff.mp happly
              cases heq
              have hsplit : scan.data = rep.wire ++ wireBlock reps := hdata
              obtain ⟨mid, hmid, hstep⟩ :=
                scanStep_wire h rep (wireBlock reps) first ms ml hms hsplit hlegible.1 hr
              have hmore : scan.data.isEmpty = false := by
                rw [hsplit]
                cases hw : rep.wire with
                | nil => exact absurd hw rep.wire_ne_nil
                | cons _ _ => rfl
              have hwithin : withinLimit ml table (rep :: reps) scan.total =
                  ((!rep.isLiteral || decide (mid.total ≤ ml)) &&
                    withinLimit ml next reps mid.total) := by
                simp only [withinLimit, hr, hmid.listed]
              rw [hwithin]
              by_cases hover : rep.isLiteral = true ∧ ml < mid.total
              · rw [if_pos hover] at hstep
                refine .inl ⟨?_, _, scanBlock_error hmore hstep⟩
                simp [hover.1, Nat.not_le.mpr hover.2]
              · rw [if_neg hover] at hstep
                rw [scanBlock_ok hmore hstep]
                have hfirst : (!rep.isLiteral || decide (mid.total ≤ ml)) = true := by
                  cases hl : rep.isLiteral with
                  | false => rfl
                  | true =>
                      have : ¬ ml < mid.total := fun hlt => hover ⟨hl, hlt⟩
                      simp [Nat.not_lt.mp this]
                rw [hfirst, Bool.true_and]
                have henters : entersAll table (rep :: reps) =
                    rep.enters table ++ entersAll next reps := by
                  simp only [entersAll, hr]
                rcases ih hmid.scanning more n hmid.data (hlegible.2 _ _ hr) hrest
                    (Nat.le_of_succ_le_succ hn) with ⟨hw, e, he⟩ | ⟨hw, after, ha, hscanned⟩
                · exact .inl ⟨hw, e, he⟩
                · refine .inr ⟨hw, after, ha, ?_⟩
                  exact
                    { scanning := hscanned.scanning
                      data := hscanned.data
                      read := by rw [hscanned.read, hmid.read, List.append_assoc]
                      listed := by
                        rw [hscanned.listed, hmid.listed, total_append, Nat.add_assoc]
                      added := by
                        rw [hscanned.added, hmid.added, henters, List.append_assoc] }

def AsciiField (field : OctetField) : Prop := IsAscii field.1 ∧ IsAscii field.2

/-- The table of the connection holds the protocol's entries, and its size is theirs. -/
structure Holds (table : DynamicTable) (expected : HeaderTable) : Prop where
  entries : table.entries.map octetField = expected.entries
  capacity : table.capacity = expected.capacity
  size : table.size = total fieldSize expected.entries
  fits : table.size ≤ table.capacity
  ascii : ∀ field ∈ expected.entries, AsciiField field

theorem entryLength_ascii (field : Field) (h : AsciiField (octetField field)) :
    entryLength field = entrySize field := by
  unfold entryLength entrySize
  rw [length_of_isAscii field.1 h.1, length_of_isAscii field.2 h.2]

theorem Holds.lengths {table : DynamicTable} {expected : HeaderTable} (h : Holds table expected) :
    ∀ field ∈ table.entries, entryLength field = entrySize field := by
  intro field hf
  apply entryLength_ascii
  apply h.ascii
  rw [← h.entries]
  exact List.mem_map_of_mem hf

theorem Holds.size_eq {table : DynamicTable} {expected : HeaderTable} (h : Holds table expected) :
    table.size = total entryLength table.entries := by
  rw [h.size, ← h.entries, total_map, total_congr table.entries h.lengths]
  rfl

theorem Holds.setCapacity {table : DynamicTable} {expected : HeaderTable}
    (h : Holds table expected) (capacity : Nat) :
    Holds (table.setCapacity capacity) (expected.resize capacity) := by
  have hevict := evict_eq_keep entryLength (fun size => decide (capacity < size))
    (fun size field => size - entryLength field) table.size capacity table.entries
    (fun _ _ => rfl) (fun _ _ _ _ => rfl) (Nat.le_of_eq h.size_eq.symm)
  have hkeep : (keep entryLength capacity table.entries).map octetField =
      keep fieldSize capacity expected.entries := by
    rw [keep_congr capacity table.entries h.lengths, keep_entrySize, h.entries]
  have hlengths : ∀ field ∈ keep entryLength capacity table.entries,
      entryLength field = entrySize field :=
    fun field hf => h.lengths field ((keep_initial capacity table.entries).subset hf)
  unfold DynamicTable.setCapacity DynamicTable.drop
  simp only
  rw [h.size_eq, hevict]
  exact
    { entries := hkeep
      capacity := rfl
      size := by
        simp only [HeaderTable.resize]
        rw [← hkeep, total_map, total_congr _ hlengths]
        rfl
      fits := total_keep_le entryLength capacity table.entries
      ascii := fun field hf => h.ascii field ((keep_initial capacity expected.entries).subset hf) }

theorem Holds.add {table : DynamicTable} {expected : HeaderTable} (h : Holds table expected)
    (field : Field) (hascii : AsciiField (octetField field)) :
    Holds (table.add field) (expected.insert (octetField field)) := by
  have hlengths : ∀ f ∈ field :: table.entries, entryLength f = entrySize f := by
    intro f hf
    cases hf with
    | head => exact entryLength_ascii field hascii
    | tail _ hf => exact h.lengths f hf
  have hadd : table.add field = { table with
      entries := keep entryLength table.capacity (field :: table.entries),
      size := total entryLength (keep entryLength table.capacity (field :: table.entries)) } := by
    unfold DynamicTable.add DynamicTable.drop
    by_cases hc : entryLength field ≤ table.capacity
    · have hevict := evict_eq_keep entryLength
        (fun size => decide (table.capacity < size + entryLength field))
        (fun size field => size - entryLength field) table.size
        (table.capacity - entryLength field) table.entries
        (fun size _ => decide_eq_decide.mpr (by omega)) (fun _ _ _ _ => rfl)
        (Nat.le_of_eq h.size_eq.symm)
      simp only [h.size_eq, hevict, if_neg (Nat.not_lt.mpr hc), keep, if_pos hc, total,
        Nat.add_comm]
    · have hevict := evict_all entryLength
        (fun size => decide (table.capacity < size + entryLength field))
        (fun size field => size - entryLength field) table.size table.entries
        (fun size _ => decide_eq_true (by omega)) (fun _ _ _ _ => rfl)
        (Nat.le_of_eq h.size_eq.symm)
      simp only [h.size_eq, hevict, if_pos (Nat.not_le.mp hc), keep, if_neg hc, total]
  have hkeep : (keep entryLength table.capacity (field :: table.entries)).map octetField =
      keep fieldSize expected.capacity (octetField field :: expected.entries) := by
    rw [keep_congr table.capacity _ hlengths, keep_entrySize, List.map_cons, h.entries, h.capacity]
  have hkept : ∀ f ∈ keep entryLength table.capacity (field :: table.entries),
      entryLength f = entrySize f :=
    fun f hf => hlengths f ((keep_initial table.capacity _).subset hf)
  rw [hadd]
  exact
    { entries := hkeep
      capacity := h.capacity
      size := by
        simp only [HeaderTable.insert]
        rw [← hkeep, total_map, total_congr _ hkept]
        rfl
      fits := total_keep_le entryLength table.capacity _
      ascii := by
        intro f hf
        have hmem := (keep_initial expected.capacity (octetField field :: expected.entries)).subset hf
        cases hmem with
        | head => exact hascii
        | tail _ hmem => exact h.ascii f hmem }

theorem Holds.addAll (added : List Field) {table : DynamicTable} {expected : HeaderTable}
    (h : Holds table expected) (hascii : ∀ field ∈ added, AsciiField (octetField field)) :
    Holds (added.foldl DynamicTable.add table)
      ((added.map octetField).foldl HeaderTable.insert expected) := by
  induction added generalizing table expected with
  | nil => exact h
  | cons field added ih =>
      exact ih (h.add field (hascii field List.mem_cons_self))
        (fun f hf => hascii f (List.mem_cons_of_mem field hf))

theorem foldl_insert (added : List OctetField) (table : HeaderTable) (room : List OctetField)
    (h : table.entries = keep fieldSize table.capacity room) :
    added.foldl HeaderTable.insert table =
      ⟨keep fieldSize table.capacity (added.reverse ++ room), table.capacity⟩ := by
  rw [← foldl_keep, ← h]
  clear h
  induction added generalizing table with
  | nil => rfl
  | cons field added ih => exact ih (table.insert field)

/-- What is held at the end of a block is all that fits then: nothing was dropped on the
way that would still fit. -/
def Settles (table : HeaderTable) (reps : List Representation) (last : HeaderTable) : Prop :=
  last.entries = keep fieldSize last.capacity ((entersAll table reps).reverse ++ table.entries)

/-- The decoder of a connection is where the protocol's table is. -/
structure InStep (decoder : Decoder) (table : HeaderTable) : Prop where
  holds : Holds decoder.table table
  bound : table.capacity ≤ maxTableCapacity
  maxStringLength : decoder.maxStringLength = 32768
  maxHeaderListSize : decoder.maxHeaderListSize = 262144

theorem InStep.initial : InStep Decoder.new HeaderTable.initial where
  holds :=
    { entries := rfl
      capacity := rfl
      size := rfl
      fits := Nat.zero_le _
      ascii := fun _ h => absurd h List.not_mem_nil }
  bound := Nat.le_refl _
  maxStringLength := rfl
  maxHeaderListSize := rfl

theorem InStep.scanning {decoder : Decoder} {table : HeaderTable} (h : InStep decoder table)
    (block : List UInt8) :
    Scanning ⟨block, decoder.table.entries, decoder.table.capacity, decoder.table.size, 0, [], []⟩
      table where
  entries := h.holds.entries
  capacity := h.holds.capacity
  bound := h.bound
  size := by
    simp only
    rw [h.holds.size, total_entrySize, h.holds.entries]
  fits := h.holds.fits

theorem applyAll_capacity (reps : List Representation) (table last : HeaderTable)
    (fields : List OctetField) (h : applyAll table reps = some (last, fields))
    (hb : table.capacity ≤ maxTableCapacity) : last.capacity ≤ maxTableCapacity := by
  induction reps generalizing table fields with
  | nil =>
      cases h
      exact hb
  | cons rep reps ih =>
      simp only [applyAll] at h
      cases hr : rep.apply table with
      | none => simp [hr] at h
      | some result =>
          obtain ⟨next, first⟩ := result
          simp only [hr] at h
          obtain ⟨⟨_, more⟩, hrest, heq⟩ := Option.map_eq_some_iff.mp h
          cases heq
          apply ih next more hrest
          cases rep with
          | indexed index =>
              obtain ⟨_, _, heq⟩ := Option.map_eq_some_iff.mp hr
              cases heq
              exact hb
          | literal indexing name value =>
              obtain ⟨_, _, heq⟩ := Option.map_eq_some_iff.mp hr
              cases heq
              split <;> exact hb
          | sizeUpdate capacity =>
              unfold Representation.apply at hr
              simp only at hr
              split at hr
              · cases hr
                assumption
              · cases hr

theorem Decoder.decode_error {decoder : Decoder} {block : List UInt8} {e : String}
    (h : scanBlock decoder.maxStringLength decoder.maxHeaderListSize block.length
      ⟨block, decoder.table.entries, decoder.table.capacity, decoder.table.size, 0, [], []⟩ =
        .error e) : decoder.decode block = .error e := by
  simp only [Decoder.decode, decodeBlock, h]

theorem Decoder.decode_ok {decoder : Decoder} {block : List UInt8} {scan : HeaderScan}
    (h : scanBlock decoder.maxStringLength decoder.maxHeaderListSize block.length
      ⟨block, decoder.table.entries, decoder.table.capacity, decoder.table.size, 0, [], []⟩ =
        .ok scan) :
    decoder.decode block = .ok (scan.fields, { decoder with
      table := scan.added.foldl DynamicTable.add
        (if scan.capacity ≠ decoder.table.capacity then decoder.table.setCapacity scan.capacity
        else decoder.table) }) := by
  simp only [Decoder.decode, decodeBlock, h]

/-- A valid block is refused for its size, or gives the fields it means and leaves the
table of the connection with the newest entries that fit at its end. -/
theorem InStep.decode {decoder : Decoder} {table last : HeaderTable} (h : InStep decoder table)
    (reps : List Representation) (fields : List OctetField)
    (happly : applyAll table reps = some (last, fields))
    (hlegible : EveryRep (fun table rep => rep.Legible 32768 table) table reps)
    (hascii : ∀ field ∈ entersAll table reps, AsciiField field) :
    (withinLimit 262144 table reps 0 = false ∧ ∃ e, decoder.decode (wireBlock reps) = .error e) ∨
      (withinLimit 262144 table reps 0 = true ∧
        ∃ read after, decoder.decode (wireBlock reps) = .ok (read, after) ∧
          read.map octetField = fields ∧
          InStep after ⟨keep fieldSize last.capacity
            ((entersAll table reps).reverse ++ table.entries), last.capacity⟩) := by
  have hscan := scanBlock_wire reps (h.scanning (wireBlock reps)) fields 32768 262144
    (wireBlock reps).length (by omega) rfl hlegible happly (length_le_wireBlock reps)
  rw [← h.maxStringLength, ← h.maxHeaderListSize] at hscan
  rcases hscan with ⟨hw, e, he⟩ | ⟨hw, after, ha, hscanned⟩
  · rw [h.maxHeaderListSize] at hw
    exact .inl ⟨hw, e, Decoder.decode_error he⟩
  · rw [h.maxHeaderListSize] at hw
    refine .inr ⟨hw, after.fields, _, Decoder.decode_ok ha, ?_, ?_⟩
    · simpa using hscanned.read
    · have hadded : after.added.map octetField = entersAll table reps := by
        simpa using hscanned.added
      have hcap := hscanned.scanning.capacity
      have hstart : Holds (if after.capacity ≠ decoder.table.capacity then
          decoder.table.setCapacity after.capacity else decoder.table)
          (table.resize last.capacity) := by
        split
        · rw [hcap]
          exact h.holds.setCapacity last.capacity
        · rename_i hsame
          have heq : last.capacity = table.capacity := by
            rw [← hcap, ← h.holds.capacity]
            exact not_not.mp hsame
          have hfits := h.holds.fits
          rw [h.holds.size, h.holds.capacity] at hfits
          have hid : table.resize last.capacity = table := by
            unfold HeaderTable.resize
            rw [heq, keep_of_total_le _ _ hfits]
          rw [hid]
          exact h.holds
      have hall := hstart.addAll after.added (fun field hf => by
        apply hascii
        rw [← hadded]
        exact List.mem_map_of_mem hf)
      rw [hadded, foldl_insert _ _ table.entries rfl] at hall
      exact
        { holds := hall
          bound := applyAll_capacity reps table last fields happly h.bound
          maxStringLength := h.maxStringLength
          maxHeaderListSize := h.maxHeaderListSize }

end Zuri.Http.H2
