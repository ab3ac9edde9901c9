import Zuri.Modules.StructRecords

/-!
The engines share one layout exactly for straight formats in whose records nothing lies past the
end. Values can be packed by every format, so that each of the conditions is seen to be needed.
-/

namespace Zuri.Struct

variable {m : Machine}

theorem parseCodes_valid (turns : Nat) (chars : List Char) {groups : List Group}
    (h : parseCodes turns chars = .ok groups) : ∀ g ∈ groups, isValidCode g.code = true := by
  induction turns generalizing chars groups with
  | zero =>
      obtain rfl := Except.ok.inj h
      exact fun g hg => absurd hg List.not_mem_nil
  | succ turns ih =>
      cases chars with
      | nil =>
          obtain rfl := Except.ok.inj h
          exact fun g hg => absurd hg List.not_mem_nil
      | cons code chars =>
          rw [parseCodes] at h
          split at h
          · exact nomatch h
          · next hvalid =>
              have hcode : isValidCode code = true := by simpa using hvalid
              have hcons : ∀ {rep : Repeat} {chars : List Char},
                  (do
                    let groups ← parseCodes turns chars
                    pure (⟨code, rep, none⟩ :: groups)) = Except.ok groups →
                  ∀ g ∈ groups, isValidCode g.code = true := by
                intro rep chars h
                obtain ⟨rest, hrest, h⟩ := bind_eq_ok.mp h
                obtain rfl := Except.ok.inj h
                intro g hg
                rcases List.mem_cons.mp hg with rfl | hg
                · exact hcode
                · exact ih _ hrest g hg
              split at h
              · exact hcons h
              · simp only at h
                split at h
                · exact hcons h
                · split at h
                  · exact hcons h
                  · exact nomatch h

theorem parseSegment_valid {segment : List Char} {groups : List Group}
    (h : parseSegment segment = .ok groups) : ∀ g ∈ groups, isValidCode g.code = true := by
  unfold parseSegment at h
  split at h
  · obtain rfl := Except.ok.inj h
    exact fun g hg => absurd hg List.not_mem_nil
  · simp only at h
    split at h
    · exact nomatch h
    · obtain ⟨parsed, hparsed, h⟩ := bind_eq_ok.mp h
      have hvalid := parseCodes_valid _ _ hparsed
      split at h
      · obtain rfl := Except.ok.inj h
        exact hvalid
      · split at h
        · exact nomatch h
        · obtain rfl := Except.ok.inj h
          intro g hg
          obtain ⟨g', hg', rfl⟩ := List.mem_map.mp hg
          exact hvalid g' hg'

theorem mapM_valid {segments : List (List Char)} {parsed : List (List Group)}
    (h : segments.mapM parseSegment = .ok parsed) :
    ∀ g ∈ parsed.flatten, isValidCode g.code = true := by
  induction segments generalizing parsed with
  | nil =>
      obtain rfl := Except.ok.inj h
      exact fun g hg => absurd hg List.not_mem_nil
  | cons segment segments ih =>
      rw [List.mapM_cons] at h
      obtain ⟨groups, hgroups, h⟩ := bind_eq_ok.mp h
      obtain ⟨rest, hrest, h⟩ := bind_eq_ok.mp h
      obtain rfl := Except.ok.inj h
      intro g hg
      rw [List.flatten_cons, List.mem_append] at hg
      rcases hg with hg | hg
      · exact parseSegment_valid hgroups g hg
      · exact ih hrest g hg

theorem parseFormat_valid {format : List Char} {groups : List Group}
    (h : parseFormat format = .ok groups) : ∀ g ∈ groups, isValidCode g.code = true := by
  unfold parseFormat at h
  cases hparsed : (format.splitOn '/').mapM parseSegment with
  | error e =>
      rw [hparsed] at h
      exact nomatch h
  | ok parsed =>
      rw [hparsed] at h
      obtain rfl := Except.ok.inj h
      exact mapM_valid hparsed

/-- Values that a group takes. -/
def samples (g : Group) : List Value :=
  match kind g.code with
  | .text | .hex => [.string ""]
  | .value => List.replicate g.times (.number F64.zero)
  | .pad | .back | .seek => []

theorem writeGroupValue_zero (code : Char) :
    ∃ bytes, writeGroupValue m code (.number F64.zero) = .ok bytes := by
  unfold writeGroupValue
  split
  · exact ⟨_, rfl⟩
  · cases codeFloatSpec code with
    | some spec => exact ⟨_, rfl⟩
    | none =>
        have hzero : valueToI128 m (.number F64.zero) = .ok 0 := by
          have hnum : F64.zero.num = .fin false 0 := by rfl
          have hwhole : hasFract (.fin false 0) = false := by decide +kernel
          have hvalue : toI128 (.fin false 0) = 0 := by decide +kernel
          simp only [valueToI128, hnum, hwhole, hvalue, Bool.false_eq_true, if_false]
        rw [hzero]
        exact ⟨_, rfl⟩

theorem packMany_zeros (code : Char) {items : List Value} (count : Nat) {s : Packing}
    (h : ∀ k < count, items[s.idx + k]? = some (.number F64.zero)) :
    ∃ out, packMany m code items count s = .ok ⟨s.idx + count, out⟩ := by
  induction count generalizing s with
  | zero => exact ⟨s.out, rfl⟩
  | succ count ih =>
      obtain ⟨bytes, hbytes⟩ := writeGroupValue_zero (m := m) code
      have hfirst : nextArg items s.idx code = .ok (.number F64.zero) := by
        rw [nextArg, ← Nat.add_zero s.idx, h 0 (Nat.succ_pos _)]
      obtain ⟨out, hout⟩ := ih (s := ⟨s.idx + 1, s.out ++ bytes⟩) fun k hk => by
        rw [show s.idx + 1 + k = s.idx + (k + 1) by omega]
        exact h (k + 1) (Nat.succ_lt_succ hk)
      refine ⟨out, ?_⟩
      rw [packMany, hfirst]
      refine bind_eq_ok.mpr ⟨_, rfl, bind_eq_ok.mpr ⟨_, hbytes, ?_⟩⟩
      rw [hout, Nat.add_assoc, Nat.add_comm 1]

theorem nextArg_sample (front rest : List Value) (code : Char) :
    nextArg (front ++ ([Value.string ""] ++ rest)) front.length code = .ok (.string "") := by
  rw [nextArg, List.getElem?_append_right (Nat.le_refl _), Nat.sub_self]
  rfl

theorem length_sample (front : List Value) :
    front.length + 1 = (front ++ [Value.string ""]).length := by
  rw [List.length_append]
  rfl

theorem packGroup_samples {g : Group} (hg : Fixed g) (front rest : List Value)
    (out : List UInt8) : ∃ out', packGroup m (front ++ (samples g ++ rest)) ⟨front.length, out⟩ g =
      .ok ⟨(front ++ samples g).length, out'⟩ := by
  unfold packGroup samples
  cases hkind : kind g.code with
  | text =>
      refine ⟨out ++ writePaddedString [] g.times g.code,
        bind_eq_ok.mpr ⟨_, nextArg_sample front rest g.code, bind_eq_ok.mpr ⟨[], rfl, ?_⟩⟩⟩
      simp only [g.times_eq _ hg.noStar]
      exact congrArg (fun n => Except.ok (Packing.mk n _)) (length_sample front)
  | hex =>
      refine ⟨out ++ writeHex [] g.times g.code,
        bind_eq_ok.mpr ⟨_, nextArg_sample front rest g.code, bind_eq_ok.mpr ⟨[], rfl, ?_⟩⟩⟩
      simp only [g.times_eq _ hg.noStar]
      exact congrArg (fun n => Except.ok (Packing.mk n _)) (length_sample front)
  | pad =>
      rw [hg.count, List.append_nil]
      exact ⟨_, rfl⟩
  | back =>
      rw [hg.count, List.append_nil]
      exact ⟨_, rfl⟩
  | seek =>
      obtain ⟨code, rep, name⟩ := g
      rw [List.append_nil]
      cases rep with
      | one | count n => exact ⟨_, rfl⟩
      | star => exact absurd rfl hg.noStar
  | value =>
      simp only [g.times_eq _ hg.noStar]
      rw [List.length_append, List.length_replicate]
      refine packMany_zeros _ _ fun k hk => ?_
      rw [List.getElem?_append_right (Nat.le_add_right _ _), Nat.add_sub_cancel_left,
        List.getElem?_append_left (by rw [List.length_replicate]; exact hk),
        List.getElem?_replicate, if_pos hk]

theorem foldlM_pack_samples {groups : List Group} (hg : ∀ g ∈ groups, Fixed g)
    (front : List Value) (out : List UInt8) :
    ∃ s, groups.foldlM (packGroup m (front ++ groups.flatMap samples)) ⟨front.length, out⟩ =
      .ok s := by
  induction groups generalizing front out with
  | nil => exact ⟨_, rfl⟩
  | cons g groups ih =>
      obtain ⟨out', hout⟩ := packGroup_samples (m := m) (hg g List.mem_cons_self) front
        (groups.flatMap samples) out
      obtain ⟨s, hs⟩ :=
        ih (fun g hg' => hg g (List.mem_cons_of_mem _ hg')) (front ++ samples g) out'
      refine ⟨s, ?_⟩
      rw [List.foldlM_cons, List.flatMap_cons, hout, ← List.append_assoc]
      exact hs

theorem flattenPackArgs_cons (v : Value) (values : List Value) :
    flattenPackArgs (v :: values) = flattenPackArgs [v] ++ flattenPackArgs values := by
  unfold flattenPackArgs
  rw [← List.flatMap_append, List.singleton_append]

/-- Values that are no lists stay as they are. -/
theorem flattenPackArgs_self {values : List Value}
    (h : ∀ v ∈ values, flattenPackArgs [v] = [v]) : flattenPackArgs values = values := by
  induction values with
  | nil => rfl
  | cons v values ih =>
      rw [flattenPackArgs_cons, h v List.mem_cons_self,
        ih fun v hv => h v (List.mem_cons_of_mem _ hv)]
      rfl

theorem flatten_samples (groups : List Group) :
    flattenPackArgs (groups.flatMap samples) = groups.flatMap samples := by
  have hplain : ∀ v ∈ groups.flatMap samples, flattenPackArgs [v] = [v] := by
    intro v hv
    obtain ⟨g, -, hv⟩ := List.mem_flatMap.mp hv
    unfold samples at hv
    split at hv
    · rw [List.mem_singleton.mp hv]
      rfl
    · rw [List.mem_singleton.mp hv]
      rfl
    · rw [List.eq_of_mem_replicate hv]
      rfl
    all_goals exact absurd hv List.not_mem_nil
  exact flattenPackArgs_self hplain

/-- Every engine gives a format the same size, and records of it follow one another. -/
def SharedLayout (m : Machine) (format : List Char) (groups : List Group) : Prop :=
  ∃ size, calcsize format = .ok size ∧
    (∀ args out, pack m format args = .ok out → out.length = size) ∧
    (∀ data start pairs stop, start ≤ data.length →
      unpackValues m groups data start = .ok (pairs, stop) → stop = start + size) ∧
    (size ≠ 0 → ∀ data, size ∣ data.length → ∃ turns records,
      iterUnpack m turns format data = some (.ok records) ∧
      records.length = data.length / size ∧
      ∀ k (hk : k < records.length),
        unpack m format ((data.drop (k * size)).take size) 0 = .ok records[k])

section
variable {format : List Char} {groups : List Group}

theorem calcsize_eq (h : parseFormat format = .ok groups) (hg : ∀ g ∈ groups, Fixed g) :
    calcsize format = .ok (countedSize groups) := by
  rw [calcsize, h]
  exact foldlM_size hg 0

theorem pack_eq (h : parseFormat format = .ok groups) (args : List Value) :
    pack m format args = packValues m groups (flattenPackArgs args) := by
  rw [pack, h]
  rfl

theorem packValues_ok {items : List Value} {out : List UInt8} :
    packValues m groups items = .ok out ↔ ∃ s : Packing,
      groups.foldlM (packGroup m items) {} = .ok s ∧ s.out = out := by
  unfold packValues
  cases groups.foldlM (packGroup m items) {} with
  | error e =>
      constructor
      · exact fun h => nomatch h
      · rintro ⟨_, h, _⟩
        exact nomatch h
  | ok s =>
      constructor
      · exact fun h => ⟨s, rfl, Except.ok.inj h⟩
      · rintro ⟨_, hs, h⟩
        obtain rfl := Except.ok.inj hs
        exact congrArg Except.ok h

theorem unpack_eq (h : parseFormat format = .ok groups) (data : List UInt8) :
    unpack m format data 0 = (unpackValues m groups data 0).map fun r => allocDict r.1 := by
  rw [unpack, if_neg (Nat.not_lt_zero _), h]
  change (unpackValues m groups data 0 >>= fun r => pure (allocDict r.1)) = _
  cases unpackValues m groups data 0 with
  | error e => rfl
  | ok r => rfl

theorem iterUnpack_eq (h : parseFormat format = .ok groups) (hg : ∀ g ∈ groups, Fixed g)
    (hcount : countedSize groups = recordSize groups) (hsize : recordSize groups ≠ 0) {data : List UInt8} (hdvd : recordSize groups ∣ data.length)
    (turns : Nat) : iterUnpack m turns format data = iterRecords m groups data turns 0 [] := by
  have hformat : formatSize groups = .ok (recordSize groups) := hcount ▸ foldlM_size hg 0
  have hparsed : (parseFormat format >>= fun groups =>
      (formatSize groups).map fun size => (groups, size)) = .ok (groups, recordSize groups) := by
    rw [h]
    change (formatSize groups).map _ = _
    rw [hformat]
    rfl
  rw [iterUnpack, hparsed]
  simp only
  rw [if_neg hsize, if_neg (by rw [Nat.mod_eq_zero_of_dvd hdvd]; exact fun hne => hne rfl)]

theorem Straight.noSeek {size : Nat} (h : Straight size groups) :
    ∀ g ∈ groups, kind g.code ≠ .seek := by
  induction groups generalizing size with
  | nil => exact fun _ hg => absurd hg List.not_mem_nil
  | cons g groups ih => exact List.forall_mem_cons.mpr ⟨h.1, ih h.2.2.2⟩

theorem sharedLayout_of_straight (h : parseFormat format = .ok groups)
    (hg : ∀ g ∈ groups, Fixed g) (hstraight : Straight 0 groups)
    (hhigh : recordSize groups = 0 ∨
      highest 0 groups ≤ recordSize groups ∧ recordSize groups < 2 ^ 64) :
    SharedLayout m format groups := by
  have hcounted : countedSize groups = recordSize groups := by
    rcases hhigh with hzero | ⟨hhigh, hlt⟩
    · rw [hzero]
      exact Nat.le_zero.mp (hzero ▸ foldl_countAfter_le groups (Nat.le_refl 0))
    · exact foldl_countAfter_eq hstraight.noSeek 0 (Nat.lt_of_le_of_lt hhigh hlt)
  refine ⟨recordSize groups, (calcsize_eq h hg).trans (congrArg _ hcounted), fun args out hout => ?_,
    fun data start pairs stop _ hstop => ?_, fun hsize data hdvd => ?_⟩
  · rw [pack_eq h] at hout
    obtain ⟨s, hs, rfl⟩ := packValues_ok.mp hout
    rw [length_foldlM_pack hg hs]
    exact hstraight.length
  · obtain ⟨s, hs, heq⟩ := unpackValues_ok.mp hstop
    obtain ⟨-, rfl⟩ := Prod.mk.inj heq
    rw [foldlM_unpack_pos hg hs]
    exact hstraight.pos start
  · have hhigh := (hhigh.resolve_left hsize).1
    obtain ⟨count, hcount⟩ := hdvd
    have hlength : data.length = (0 + count) * recordSize groups := by
      rw [hcount, Nat.zero_add, Nat.mul_comm]
    obtain ⟨found, hfound, hlen, hall⟩ :=
      iterRecords_straight (m := m) hg hstraight hhigh hsize count 0 [] hlength
    rw [Nat.zero_mul, List.nil_append] at hfound
    refine ⟨count + 1, found, ?_, ?_, fun k hk => ?_⟩
    · rw [iterUnpack_eq h hg hcounted hsize ⟨count, hcount⟩]
      exact hfound
    · rw [hlen, hcount, Nat.mul_div_cancel_left _ (Nat.pos_of_ne_zero hsize)]
    · obtain ⟨pairs, stop, hunpack, heq⟩ := hall k hk
      rw [Nat.zero_add] at hunpack
      rw [unpack_eq h, hunpack, heq]
      rfl

/-- Data long enough for a format. -/
theorem unpack_long (hg : ∀ g ∈ groups, Fixed g) (start : Nat) {data : List UInt8}
    (hlong : highest start groups ≤ data.length) : ∃ pairs,
      unpackValues m groups data start = .ok (pairs, groups.foldl posAfter start) := by
  obtain ⟨s, hs⟩ := foldlM_unpack_exists hg (m := m) (s := { pos := start }) hlong
  exact ⟨s.result, unpackValues_ok.mpr ⟨s, hs, by rw [foldlM_unpack_pos hg hs]⟩⟩

theorem straight_of_sharedLayout (h : parseFormat format = .ok groups)
    (hg : ∀ g ∈ groups, Fixed g) (hshared : SharedLayout m format groups) :
    Straight 0 groups ∧ (recordSize groups = 0 ∨
      highest 0 groups ≤ recordSize groups ∧ recordSize groups < 2 ^ 64) := by
  obtain ⟨size, hcalc, hpacks, hadvances, hrecords⟩ := hshared
  rw [calcsize_eq h hg] at hcalc
  obtain rfl := Except.ok.inj hcalc
  -- where unpacking ends from the start of the data and from the byte after it
  have hends : ∀ start, groups.foldl posAfter start = start + countedSize groups := by
    intro start
    have hlong : highest start groups ≤
        (List.replicate (highest start groups) (0 : UInt8)).length := (List.length_replicate ..).ge
    obtain ⟨pairs, hpairs⟩ := unpack_long (m := m) hg start hlong
    refine hadvances _ start pairs _ ?_ hpairs
    rw [List.length_replicate]
    exact le_highest _ _
  have hseek : ∀ g ∈ groups, kind g.code ≠ .seek := by
    intro g hmem hkind
    have hsame := foldl_posAfter_seek hmem hkind 0 1
    rw [hends, hends] at hsame
    omega
  have hlt := countedSize_lt hseek
  have hcounted : countedSize groups = recordSize groups := by
    have hzero := hends 0
    rw [foldl_posAfter_eq hseek, Nat.zero_add] at hzero
    exact hzero.symm
  rw [hcounted] at hends hpacks hrecords hlt
  obtain ⟨-, hbacks⟩ := backs_of_pos hseek (show 1 ≤ 1 + 0 from Nat.le_refl 1) (hends 1)
  obtain ⟨s, hs⟩ := foldlM_pack_samples (m := m) hg [] []
  have hlen : groups.foldl lengthAfter 0 = groups.foldl sizeAfter 0 := by
    have hpacked := hpacks (groups.flatMap samples) s.out (by
      rw [pack_eq h, flatten_samples]
      exact packValues_ok.mpr ⟨s, hs, rfl⟩)
    rw [length_foldlM_pack hg hs] at hpacked
    exact hpacked
  obtain ⟨-, hstraight⟩ := straight_of_length hseek hbacks (Nat.le_refl 0) hlen
  refine ⟨hstraight, ?_⟩
  by_cases hsize : recordSize groups = 0
  · exact .inl hsize
  · obtain ⟨turns, records, -, hcount, hall⟩ := hrecords hsize
      (List.replicate (recordSize groups) 0) (by rw [List.length_replicate])
    rw [List.length_replicate, Nat.div_self (Nat.pos_of_ne_zero hsize)] at hcount
    have hfirst := hall 0 (by omega)
    rw [Nat.zero_mul, List.drop_zero, List.take_of_length_le (by rw [List.length_replicate]),
      unpack_eq h] at hfirst
    cases hunpack : unpackValues m groups (List.replicate (recordSize groups) 0) 0 with
    | error e =>
        rw [hunpack] at hfirst
        exact nomatch hfirst
    | ok r =>
        obtain ⟨t, ht, -⟩ := unpackValues_ok.mp hunpack
        have hhigh := foldlM_unpack_highest hg (Nat.zero_le _) ht
        rw [List.length_replicate] at hhigh
        exact .inr ⟨hhigh, hlt⟩

/-- The engines share one layout exactly if no group seeks, no terminator is left without room,
none backs up past the start, and nothing lies past the end of a record, whose size is below
2^64. -/
theorem sharedLayout_iff (h : parseFormat format = .ok groups)
    (hstar : ∀ g ∈ groups, g.repeat ≠ .star) :
    SharedLayout m format groups ↔
      Straight 0 groups ∧ (recordSize groups = 0 ∨
        highest 0 groups ≤ recordSize groups ∧ recordSize groups < 2 ^ 64) := by
  have hg : ∀ g ∈ groups, Fixed g := fun g hmem => ⟨parseFormat_valid h g hmem, hstar g hmem⟩
  exact ⟨straight_of_sharedLayout h hg,
    fun hstraight => sharedLayout_of_straight h hg hstraight.1 hstraight.2⟩

/-- A machine whose byte order is little-endian, and that is not asked to write a number. -/
def littleMachine : Machine := ⟨true, fun _ => ""⟩

/-- Two bytes, the second of them read once more. -/
def overlapped : List Group := [⟨'C', .count 2, none⟩, ⟨'X', .one, none⟩, ⟨'C', .one, none⟩]

theorem sharedLayout_iff_overlapped : SharedLayout littleMachine "C2XC".toList overlapped :=
  (sharedLayout_iff (show parseFormat _ = .ok overlapped from rfl)
    (by decide)).mpr ⟨by decide, .inr ⟨by decide, by decide⟩⟩

/-- A terminator without room is written all the same. -/
theorem sharedLayout_fails :
    parseFormat "Z0".toList = .ok [⟨'Z', .count 0, none⟩] ∧
      ¬SharedLayout littleMachine "Z0".toList [⟨'Z', .count 0, none⟩] := by
  refine ⟨rfl, ?_⟩
  rintro ⟨size, hcalc, hpacks, -⟩
  have hsize : calcsize "Z0".toList = .ok 0 := rfl
  have hpacked : pack littleMachine "Z0".toList [.string ""] = .ok [0] := rfl
  rw [hsize] at hcalc
  obtain rfl := Except.ok.inj hcalc
  exact absurd (hpacks _ _ hpacked) (by decide)

end

end Zuri.Struct
