import Zuri.Http.H1.Head
import Mathlib.Data.List.Basic

/-!
Heads do not depend on where a read ends, as long as no part of one is over a limit that
the whole of it is not over. Everything is said of the first LF: the prefixes before it are
measured by their length, the ones after it by the line.
-/

namespace Zuri.Http.H1

/-- The first LF is at `f`. -/
def FirstLf (bytes : List UInt8) (f : Nat) : Prop := bytes[f]? = some 10 ∧ 10 ∉ bytes.take f

variable {bytes part rest : List UInt8} {f : Nat} {limits : Limits} {p : Platform}

theorem idxOf?_firstLf : bytes.idxOf? 10 = some f ↔ FirstLf bytes f := by
  rw [List.idxOf?_eq_some_iff]
  constructor
  · rintro ⟨hlt, hf, hbefore⟩
    refine ⟨by rw [List.getElem?_eq_getElem hlt, hf], fun hmem => ?_⟩
    obtain ⟨j, hj, hten⟩ := List.mem_take_iff_getElem.mp hmem
    exact hbefore j (by omega) hten
  · rintro ⟨hf, hbefore⟩
    obtain ⟨hlt, hten⟩ := List.getElem?_eq_some_iff.mp hf
    refine ⟨hlt, hten, fun j hj hten' => hbefore ?_⟩
    exact List.mem_take_iff_getElem.mpr ⟨j, by omega, hten'⟩

theorem exists_firstLf {n : Nat} (h : 10 ∈ bytes.take n) : ∃ f, f < n ∧ FirstLf bytes f := by
  cases hidx : bytes.idxOf? 10 with
  | none => exact absurd (List.mem_of_mem_take h) (List.idxOf?_eq_none_iff.mp hidx)
  | some f =>
      have hf := idxOf?_firstLf.mp hidx
      refine ⟨f, ?_, hf⟩
      by_contra hge
      refine hf.2 ?_
      rw [show bytes.take n = (bytes.take f).take n by rw [List.take_take]; congr 1; omega] at h
      exact List.mem_of_mem_take h

theorem FirstLf.mem_take {n : Nat} (h : FirstLf bytes f) (hn : f < n) : 10 ∈ bytes.take n := by
  obtain ⟨hlt, hten⟩ := List.getElem?_eq_some_iff.mp h.1
  exact List.mem_take_iff_getElem.mpr ⟨f, by omega, hten⟩

theorem FirstLf.unique {g : Nat} (h : FirstLf bytes f) (hg : FirstLf bytes g) : f = g := by
  rcases Nat.lt_trichotomy f g with hlt | heq | hlt
  · exact absurd (h.mem_take hlt) hg.2
  · exact heq
  · exact absurd (hg.mem_take hlt) h.2

theorem FirstLf.idxOf_take {n : Nat} (h : FirstLf bytes f) (hn : f < n) :
    (bytes.take n).idxOf 10 = f := by
  have htake : FirstLf (bytes.take n) f := by
    refine ⟨by rw [List.getElem?_take_of_lt hn, h.1], ?_⟩
    rw [List.take_take, Nat.min_eq_left (Nat.le_of_lt hn)]
    exact h.2
  have hidx := idxOf?_firstLf.mpr htake
  rw [List.idxOf_eq_getD_idxOf?, hidx]
  rfl

theorem FirstLf.append (h : FirstLf part f) (rest : List UInt8) : FirstLf (part ++ rest) f := by
  obtain ⟨hlt, _⟩ := List.getElem?_eq_some_iff.mp h.1
  refine ⟨by rw [List.getElem?_append_left hlt, h.1], ?_⟩
  rw [List.take_append_of_le_length (Nat.le_of_lt hlt)]
  exact h.2

theorem FirstLf.lt_length (h : FirstLf bytes f) : f < bytes.length :=
  (List.getElem?_eq_some_iff.mp h.1).1

theorem lineLength_append (hf : f < part.length) (rest : List UInt8) :
    lineLength (part ++ rest) f = lineLength part f := by
  rw [lineLength, lineLength, List.getElem?_append_left (by omega)]

theorem lineLength_le (bytes : List UInt8) (f : Nat) : lineLength bytes f ≤ f := by
  unfold lineLength
  split <;> omega

theorem le_lineLength (bytes : List UInt8) (f : Nat) : f ≤ lineLength bytes f + 1 := by
  unfold lineLength
  split <;> omega

theorem overLimit_eq (raw : List UInt8) :
    overLimit limits raw =
      if limits.maxLine < (match raw.idxOf? 10 with
        | some lf => lineLength raw lf
        | none => raw.length) then some limits.line
      else if limits.maxLine + limits.maxHeaderSize < raw.length then some limits.section
      else none := rfl

/-- The line is too long, as far as it has come. -/
def LineOver (limits : Limits) (bytes : List UInt8) : Prop :=
  (∀ f, FirstLf bytes f → limits.maxLine < lineLength bytes f) ∧
    (10 ∉ bytes → limits.maxLine < bytes.length)

/-- The line is not too long, but the section is. -/
def SectionOver (limits : Limits) (bytes : List UInt8) : Prop :=
  ∃ f, FirstLf bytes f ∧ lineLength bytes f ≤ limits.maxLine ∧
    limits.maxLine + limits.maxHeaderSize < bytes.length

theorem overLimit_some {reason : String} (h : overLimit limits bytes = some reason) :
    reason = limits.line ∧ LineOver limits bytes ∨
      reason = limits.section ∧ SectionOver limits bytes := by
  rw [overLimit_eq] at h
  cases hidx : bytes.idxOf? 10 with
  | none =>
      have hnot : 10 ∉ bytes := List.idxOf?_eq_none_iff.mp hidx
      rw [hidx] at h
      simp only at h
      split at h
      · rename_i hlong
        refine .inl ⟨(Option.some.inj h).symm, fun f hf => ?_, fun _ => hlong⟩
        exact absurd (List.mem_of_mem_take (hf.mem_take (Nat.lt_succ_self f))) hnot
      · split at h
        · omega
        · cases h
  | some f =>
      have hf := idxOf?_firstLf.mp hidx
      rw [hidx] at h
      simp only at h
      split at h
      · rename_i hlong
        refine .inl ⟨(Option.some.inj h).symm, fun g hg => ?_, fun hnot => ?_⟩
        · rw [← hf.unique hg]
          exact hlong
        · exact absurd (List.mem_of_mem_take (hf.mem_take (Nat.lt_succ_self f))) hnot
      · rename_i hshort
        split at h
        · rename_i hlong
          exact .inr ⟨(Option.some.inj h).symm, f, hf, by omega, hlong⟩
        · cases h

theorem overLimit_line (h : LineOver limits bytes) : overLimit limits bytes = some limits.line := by
  rw [overLimit_eq]
  cases hidx : bytes.idxOf? 10 with
  | none => rw [if_pos (h.2 (List.idxOf?_eq_none_iff.mp hidx))]
  | some f => rw [if_pos (h.1 f (idxOf?_firstLf.mp hidx))]

theorem overLimit_section (h : SectionOver limits bytes) :
    overLimit limits bytes = some limits.section := by
  obtain ⟨f, hf, hline, hlong⟩ := h
  rw [overLimit_eq, idxOf?_firstLf.mpr hf]
  simp only
  rw [if_neg (by omega), if_pos hlong]

/-- A part of the bytes that is over a limit is at least as long as the first such part. -/
theorem firstOver_le (hparts : part ++ rest = bytes) {reason : String}
    (h : overLimit limits part = some reason) : firstOver limits bytes ≤ part.length := by
  have hbelow : ∀ f, FirstLf part f → 10 ∈ bytes.take (limits.maxLine + 1) → f ≤ limits.maxLine := by
    intro f hf hmem
    obtain ⟨g, hg, hg'⟩ := exists_firstLf hmem
    have hsame := (hparts ▸ hf.append rest).unique hg'
    omega
  unfold firstOver
  rcases overLimit_some h with ⟨_, hline, hnone⟩ | ⟨_, f, hf, hline, hlong⟩
  · by_cases hpart : 10 ∈ part
    · obtain ⟨f, _, hf⟩ := exists_firstLf (n := part.length) (by rw [List.take_length]; exact hpart)
      have hover := hline f hf
      have hle := lineLength_le part f
      have hlt := hf.lt_length
      split
      · rename_i hmem
        have hsmall := hbelow f hf hmem
        omega
      · omega
    · have hover := hnone hpart
      split
      · rename_i hmem
        obtain ⟨g, hg, hg'⟩ := exists_firstLf hmem
        obtain ⟨hlt, hten⟩ := List.getElem?_eq_some_iff.mp hg'.1
        have hin : part[g]? = some 10 := by
          rw [← hg'.1, ← hparts, List.getElem?_append_left (by omega)]
        exact absurd (List.mem_of_getElem? hin) hpart
      · omega
  · have hlt := hf.lt_length
    split <;> omega

/-- What a part of the bytes is over, all of them are over, but for a line that ends just
where it may. -/
theorem over_whole (hparts : part ++ rest = bytes) (hexact : exactLine limits bytes = false)
    {reason : String} (h : overLimit limits part = some reason) :
    reason = limits.line ∧ LineOver limits bytes ∨
      reason = limits.section ∧ SectionOver limits bytes ∧
        limits.maxLine + limits.maxHeaderSize < part.length ∧
        ∃ f, FirstLf bytes f ∧ f ≤ limits.maxLine := by
  have hlength : part.length ≤ bytes.length := by
    rw [← hparts, List.length_append]
    omega
  have hcut : ∀ f, FirstLf bytes f → limits.maxLine < f → limits.maxLine < lineLength bytes f := by
    intro f hf hlong
    have hle := le_lineLength bytes f
    by_contra hshort
    obtain rfl : f = limits.maxLine + 1 := by omega
    have hcr : bytes[limits.maxLine]? = some 13 := by
      by_contra hne
      rw [lineLength, if_neg (by simp [hne])] at hshort
      omega
    have hyes : exactLine limits bytes = true := by
      simp [exactLine, hf.2, hcr, hf.1]
    rw [hexact] at hyes
    cases hyes
  rcases overLimit_some h with ⟨hreason, hline, hnone⟩ | ⟨hreason, f, hf, hline, hlong⟩
  · refine .inl ⟨hreason, fun f hf => ?_, fun hnot => ?_⟩
    · rcases Nat.lt_or_ge f part.length with hlt | hge
      · have hpart : FirstLf part f := by
          refine ⟨?_, ?_⟩
          · rw [← hf.1, ← hparts, List.getElem?_append_left hlt]
          · have htake : bytes.take f = part.take f := by
              rw [← hparts, List.take_append_of_le_length (Nat.le_of_lt hlt)]
            rw [← htake]
            exact hf.2
        have hover := hline f hpart
        rwa [← hparts, lineLength_append hlt]
      · have hpart : 10 ∉ part := by
          intro hmem
          obtain ⟨g, hg, hg'⟩ := exists_firstLf (n := part.length)
            (by rw [List.take_length]; exact hmem)
          have hsame := (hparts ▸ hg'.append rest).unique hf
          omega
        exact hcut f hf (Nat.lt_of_lt_of_le (hnone hpart) hge)
    · have hpart : 10 ∉ part := fun hmem => hnot (hparts ▸ List.mem_append_left rest hmem)
      exact Nat.lt_of_lt_of_le (hnone hpart) hlength
  · have hlt := hf.lt_length
    have hf' : FirstLf bytes f := hparts ▸ hf.append rest
    have hsame : lineLength bytes f = lineLength part f := by
      rw [← hparts, lineLength_append hlt]
    refine .inr ⟨hreason, ⟨f, hf', by omega, by omega⟩, hlong, f, hf', ?_⟩
    by_contra hfar
    have hover := hcut f hf' (by omega)
    omega

theorem take_append_drop_part {n : Nat} (hparts : part ++ rest = bytes) (hn : n ≤ part.length) :
    bytes.take n ++ part.drop n = part := by
  rw [← hparts, List.take_append_of_le_length hn, List.take_append_drop]

/-- What is decided by a part of the bytes is decided in the same way by all of them. -/
theorem parseData_same (hparse : Httparse p) (hfits : headFits p limits bytes = true)
    (hparts : part ++ rest = bytes) {result : Except String (Fields × Nat)}
    (h : parseData p limits part = some result) : parseData p limits bytes = some result := by
  cases hstatus : p.parse limits.maxHeaderCount part with
  | tooManyHeaders =>
      have hwhole := hparse.stable limits.maxHeaderCount part rest (by rw [hstatus]; simp)
      rw [hparts, hstatus] at hwhole
      rw [parseData, hstatus] at h
      rw [parseData, hwhole]
      exact h
  | malformed why =>
      have hwhole := hparse.stable limits.maxHeaderCount part rest (by rw [hstatus]; simp)
      rw [hparts, hstatus] at hwhole
      rw [parseData, hstatus] at h
      rw [parseData, hwhole]
      exact h
  | complete head amount =>
      have hwhole := hparse.stable limits.maxHeaderCount part rest (by rw [hstatus]; simp)
      rw [hparts, hstatus] at hwhole
      obtain ⟨hle, hmem, _⟩ := hparse.complete _ _ _ _ hstatus
      obtain ⟨f, hf, hfirst⟩ := exists_firstLf hmem
      have htake : bytes.take amount = part.take amount := by
        rw [← hparts, List.take_append_of_le_length hle]
      have hline : lineLength bytes f = lineLength part f := by
        rw [← hparts, lineLength_append (by omega)]
      simp only [parseData, hstatus, hfirst.idxOf_take hf] at h
      simp only [parseData, hwhole, htake, hfirst.idxOf_take hf, hline]
      exact h
  | incomplete =>
      rw [parseData, hstatus] at h
      obtain ⟨reason, hover, rfl⟩ := Option.map_eq_some_iff.mp h
      have hfirst := firstOver_le hparts hover
      have hlength : part.length ≤ bytes.length := by
        rw [← hparts, List.length_append]
        omega
      have hearly : p.parse limits.maxHeaderCount (bytes.take (firstOver limits bytes)) =
          .incomplete := by
        by_contra hdecided
        have hsplit := take_append_drop_part hparts hfirst
        have hlate := hparse.stable _ _ (part.drop (firstOver limits bytes)) hdecided
        rw [hsplit, hstatus] at hlate
        exact hdecided hlate.symm
      have hrest : exactLine limits bytes = false ∧
          (p.parse limits.maxHeaderCount bytes).refused = false := by
        simp only [headFits, hearly, Status.isIncomplete, Bool.not_true, Bool.or_false,
          Bool.or_eq_true, decide_eq_true_eq, Bool.and_eq_true, Bool.not_eq_true'] at hfits
        exact hfits.resolve_left (by omega)
      rcases over_whole hparts hrest.1 hover with
        ⟨rfl, hline⟩ | ⟨rfl, hsection, hlong, f, hf, hsmall⟩
      · cases hwhole : p.parse limits.maxHeaderCount bytes with
        | tooManyHeaders => rw [hwhole] at hrest; cases hrest.2
        | malformed why => rw [hwhole] at hrest; cases hrest.2
        | incomplete => rw [parseData, hwhole, overLimit_line hline, Option.map_some]
        | complete head amount =>
            obtain ⟨_, hmem, _⟩ := hparse.complete _ _ _ _ hwhole
            obtain ⟨f, hf, hfirst⟩ := exists_firstLf hmem
            simp only [parseData, hwhole, hfirst.idxOf_take hf]
            rw [if_pos (hline.1 f hfirst)]
      · cases hwhole : p.parse limits.maxHeaderCount bytes with
        | tooManyHeaders => rw [hwhole] at hrest; cases hrest.2
        | malformed why => rw [hwhole] at hrest; cases hrest.2
        | incomplete => rw [parseData, hwhole, overLimit_section hsection, Option.map_some]
        | complete head amount =>
            obtain ⟨_, hmem, hexact⟩ := hparse.complete _ _ _ _ hwhole
            obtain ⟨g, hg, hfirst⟩ := exists_firstLf hmem
            obtain rfl := hf.unique hfirst
            have hle := lineLength_le bytes f
            have hlate : part.length < amount := by
              by_contra hshort
              have hsplit := take_append_drop_part hparts (n := amount) (by omega)
              have hdone := hparse.stable limits.maxHeaderCount (bytes.take amount)
                (part.drop amount) (by rw [hexact]; simp)
              rw [hsplit, hstatus, hexact] at hdone
              cases hdone
            simp only [parseData, hwhole, hfirst.idxOf_take hg]
            rw [if_neg (by omega), if_pos (by omega)]

end Zuri.Http.H1
