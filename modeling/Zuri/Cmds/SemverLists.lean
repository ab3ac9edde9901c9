import Mathlib.Data.Nat.Digits.Lemmas
import Zuri.Cmds.SemverText

/-!
Lists of versions. They are sorted by precedence and the highest is found by precedence, as long
as the versions are compared by their precedence.
-/

namespace Zuri.Semver

open Lexical

/-- The parts of a version with the doubles nearest to its numbers. -/
def VersionText.key (v : VersionText) : List (Part (WithTop Nat)) := v.groups.parts.map nearestPart

def atMost (v w : VersionText) : Bool := decide (v.version.compare w.version ≤ 0)

theorem compare_key (v w : VersionText) :
    v.version.compare w.version = Lexical.order v.key w.key := v.groups.compare_eq w.groups

theorem atMost_iff (v w : VersionText) : atMost v w = true ↔ v.key ≤ w.key := by
  rw [atMost, decide_eq_true_eq, compare_key, order_nonpos]

theorem atMost_total (v w : VersionText) : atMost v w = true ∨ atMost w v = true := by
  rw [atMost_iff, atMost_iff]
  exact le_total _ _

theorem atMost_trans (u v w : VersionText) (huv : atMost u v = true) (hvw : atMost v w = true) :
    atMost u w = true := by
  rw [atMost_iff] at huv hvw ⊢
  exact huv.trans hvw

/-- Comparing is the precedence for every two versions of a list. -/
def AllClear (versions : List VersionText) : Prop :=
  ∀ v ∈ versions, ∀ w ∈ versions, Clear v.groups w.groups

theorem AllClear.compare {versions : List VersionText} (h : AllClear versions) {v w : VersionText}
    (hv : v ∈ versions) (hw : w ∈ versions) :
    v.version.compare w.version = precedence v.groups w.groups :=
  (compare_precedence _ _).mpr (h v hv w hw)

theorem mapM_keyed (versions : List VersionText) :
    (versions.map fun v => Item.text v.text).mapM keyed =
      .ok (versions.map fun v => (v.version, Item.text v.text)) := by
  induction versions with
  | nil => rfl
  | cons v versions ih =>
      have hkey : keyed (.text v.text) = .ok (v.version, .text v.text) := by
        rw [keyed, Item.key, v.parse_text]
        rfl
      rw [List.map_cons, List.mapM_cons, hkey, ih]
      rfl

theorem sorted_eq (versions : List VersionText) :
    sorted (versions.map fun v => .text v.text) =
      .ok ((MergeSort.sort atMost versions).map fun v => .text v.text) := by
  rw [sorted, mapM_keyed, Except.map, mergeSort]
  have hsort : MergeSort.sort (fun a b : Version × Item => decide (a.1.compare b.1 ≤ 0))
      (versions.map fun v => (v.version, Item.text v.text)) =
        (MergeSort.sort atMost versions).map fun v => (v.version, Item.text v.text) :=
    MergeSort.sort_map (fun _ _ => rfl) versions
  rw [hsort, List.map_map]
  rfl

theorem same_iff {versions : List VersionText} (h : AllClear versions) {v c : VersionText}
    (hv : v ∈ versions) (hc : c ∈ versions) :
    MergeSort.same atMost c v = decide (precedence v.groups c.groups = 0) := by
  rw [← h.compare hv hc, compare_key, Bool.eq_iff_iff, MergeSort.same, Bool.and_eq_true,
    atMost_iff, atMost_iff, decide_eq_true_eq, order_eq_zero]
  constructor
  · exact fun hle => le_antisymm hle.1 hle.2
  · exact fun heq => ⟨heq.le, heq.ge⟩

/-- A permutation that ascends by precedence and keeps versions of one precedence in order. -/
structure Ascends (versions result : List VersionText) : Prop where
  perm : result.Perm versions
  ascending : result.Pairwise fun v w => precedence v.groups w.groups ≤ 0
  stable : ∀ c ∈ versions, (result.filter fun v => decide (precedence v.groups c.groups = 0)) =
    versions.filter fun v => decide (precedence v.groups c.groups = 0)

theorem sorted_ascends {versions : List VersionText} (h : AllClear versions) :
    ∃ result, sorted (versions.map fun v => .text v.text) =
        .ok (result.map fun v => .text v.text) ∧ Ascends versions result := by
  have hperm : (MergeSort.sort atMost versions).Perm versions := MergeSort.sort_perm versions
  refine ⟨_, sorted_eq versions, hperm, ?_, fun c hc => ?_⟩
  · have hsorted := MergeSort.sort_sorted atMost_total atMost_trans versions
    refine List.Pairwise.imp_of_mem (fun hv hw hle => ?_) hsorted
    rw [← h.compare (hperm.mem_iff.mp hv) (hperm.mem_iff.mp hw)]
    exact of_decide_eq_true hle
  · have hstable := MergeSort.sort_stable atMost_total atMost_trans versions c
    have hleft := List.filter_congr (l := MergeSort.sort atMost versions) fun v hv =>
      same_iff h (hperm.mem_iff.mp hv) hc
    have hright := List.filter_congr (l := versions) fun v hv => same_iff h hv hc
    rw [hleft, hright] at hstable
    exact hstable

/-- The highest of some versions that satisfy a range, if any does. -/
def Highest (satisfies : Version → Bool) (versions : List VersionText) (best : Option VersionText) :
    Prop :=
  match best with
  | none => ∀ v ∈ versions, satisfies v.version = false
  | some best => best ∈ versions ∧ satisfies best.version = true ∧
      ∀ v ∈ versions, satisfies v.version = true → v.key ≤ best.key

theorem foldlM_better (satisfies : Version → Bool) (seen rest : List VersionText)
    (best : Option VersionText) (hbest : Highest satisfies seen best) :
    ∃ final, (rest.map VersionText.text).foldlM (better satisfies)
        (best.map fun v => (v.version, v.text)) =
          .ok (final.map fun v => (v.version, v.text)) ∧
      Highest satisfies (seen ++ rest) final := by
  induction rest generalizing seen best with
  | nil => exact ⟨best, rfl, by rwa [List.append_nil]⟩
  | cons v rest ih =>
      have hstep : ∃ next, better satisfies (best.map fun v => (v.version, v.text)) v.text =
          .ok (next.map fun v => (v.version, v.text)) ∧ Highest satisfies (seen ++ [v]) next := by
        rw [better, v.parse_text]
        simp only [Except.map]
        cases hin : satisfies v.version with
        | false =>
            refine ⟨best, rfl, ?_⟩
            cases best with
            | none =>
                intro w hw
                rcases List.mem_append.mp hw with hw | hw
                · exact hbest w hw
                · rw [List.mem_singleton.mp hw]
                  exact hin
            | some best =>
                refine ⟨List.mem_append_left _ hbest.1, hbest.2.1, fun w hw hsat => ?_⟩
                rcases List.mem_append.mp hw with hw | hw
                · exact hbest.2.2 w hw hsat
                · rw [List.mem_singleton.mp hw, hin] at hsat
                  exact absurd hsat (by decide)
        | true =>
            cases best with
            | none =>
                refine ⟨some v, rfl, by simp, hin, fun w hw hsat => ?_⟩
                rcases List.mem_append.mp hw with hw | hw
                · rw [hbest w hw] at hsat
                  exact absurd hsat (by decide)
                · rw [List.mem_singleton.mp hw]
            | some best =>
                by_cases hgt : v.version.compare best.version > 0
                · refine ⟨some v, by simp [hgt], by simp, hin, fun w hw hsat => ?_⟩
                  rw [compare_key, gt_iff_lt, order_pos] at hgt
                  rcases List.mem_append.mp hw with hw | hw
                  · exact (hbest.2.2 w hw hsat).trans hgt.le
                  · rw [List.mem_singleton.mp hw]
                · refine ⟨some best, by simp [hgt], List.mem_append_left _ hbest.1, hbest.2.1,
                    fun w hw hsat => ?_⟩
                  rw [compare_key, gt_iff_lt, order_pos, not_lt] at hgt
                  rcases List.mem_append.mp hw with hw | hw
                  · exact hbest.2.2 w hw hsat
                  · rw [List.mem_singleton.mp hw]
                    exact hgt
      obtain ⟨next, hnext, hhighest⟩ := hstep
      obtain ⟨final, hfinal, hall⟩ := ih (seen ++ [v]) next hhighest
      refine ⟨final, ?_, ?_⟩
      · rw [List.map_cons, List.foldlM_cons, hnext]
        exact hfinal
      · rwa [List.append_assoc] at hall

/-- The text of a version of the list that is in the range and not below any other that is. -/
def Selected (satisfies : Version → Bool) (versions : List VersionText) : Option Text → Prop
  | none => ∀ v ∈ versions, satisfies v.version = false
  | some text => ∃ best ∈ versions, best.text = text ∧ satisfies best.version = true ∧
      ∀ v ∈ versions, satisfies v.version = true → 0 ≤ precedence best.groups v.groups

theorem maxSatisfying_selected (satisfies : Version → Bool) {versions : List VersionText}
    (h : AllClear versions) :
    ∃ best, maxSatisfying (versions.map VersionText.text) satisfies = .ok best ∧
      Selected satisfies versions best := by
  obtain ⟨final, hfold, hfinal⟩ := foldlM_better satisfies [] versions none
    (fun _ hv => absurd hv List.not_mem_nil)
  rw [List.nil_append] at hfinal
  refine ⟨final.map VersionText.text, ?_, ?_⟩
  · change (versions.map VersionText.text).foldlM (better satisfies) none = _ at hfold
    rw [maxSatisfying, hfold]
    cases final <;> rfl
  · cases final with
    | none => exact hfinal
    | some best =>
        obtain ⟨hmem, hsat, hall⟩ := hfinal
        refine ⟨best, hmem, rfl, hsat, fun v hv hin => ?_⟩
        rw [← h.compare hmem hv, compare_key]
        have hle := hall v hv hin
        rcases lt_or_eq_of_le hle with hlt | heq
        · rw [order_gt hlt]
          decide
        · rw [heq, Lexical.order_self]

/-- Every number in the version is exact as a double. -/
def Groups.Small (g : Groups) : Prop :=
  value g.major ≤ 2 ^ 53 ∧ value g.minor ≤ 2 ^ 53 ∧ value g.patch ≤ 2 ^ 53 ∧
    ∀ i ∈ g.pre, isNumeric i = true → value i ≤ 2 ^ 53

theorem Groups.Small.parts {g : Groups} (hg : g.Small) :
    ∀ part ∈ g.parts, (∃ n ≤ 2 ^ 53, part = number n) ∨ (∃ text, part = word text) ∨ part = ⊤ := by
  obtain ⟨hmajor, hminor, hpatch, hpre⟩ := hg
  intro part hpart
  simp only [Groups.parts, List.mem_cons] at hpart
  rcases hpart with rfl | rfl | rfl | hpart
  · exact .inl ⟨_, hmajor, rfl⟩
  · exact .inl ⟨_, hminor, rfl⟩
  · exact .inl ⟨_, hpatch, rfl⟩
  · split at hpart
    · exact .inr (.inr (List.mem_singleton.mp hpart))
    · obtain ⟨i, hi, rfl⟩ := List.mem_map.mp hpart
      unfold identifierPart
      by_cases hnumeric : isNumeric i = true
      · rw [if_pos hnumeric]
        exact .inl ⟨_, hpre i hi hnumeric, rfl⟩
      · rw [if_neg hnumeric]
        exact .inr (.inl ⟨i, rfl⟩)

theorem nearestPart_inj {a b : Part Nat}
    (ha : (∃ n ≤ 2 ^ 53, a = number n) ∨ (∃ text, a = word text) ∨ a = ⊤)
    (hb : (∃ n ≤ 2 ^ 53, b = number n) ∨ (∃ text, b = word text) ∨ b = ⊤)
    (heq : nearestPart a = nearestPart b) : a = b := by
  rcases ha with ⟨m, hm, rfl⟩ | ⟨s, rfl⟩ | rfl
  · rcases hb with ⟨n, hn, rfl⟩ | ⟨t, rfl⟩ | rfl
    · rw [nearestPart_number, nearestPart_number, ← order_eq_zero, order_number, order_eq_zero] at heq
      rw [F64.nearest_inj hm hn heq]
    · exact absurd heq (number_lt_word _ _).ne
    · exact absurd heq WithTop.coe_ne_top
  · rcases hb with ⟨n, hn, rfl⟩ | ⟨t, rfl⟩ | rfl
    · exact absurd heq (number_lt_word _ _).ne'
    · rw [nearestPart_word, nearestPart_word, ← order_eq_zero, order_word, order_eq_zero] at heq
      rw [heq]
    · exact absurd heq WithTop.coe_ne_top
  · rcases hb with ⟨n, hn, rfl⟩ | ⟨t, rfl⟩ | rfl
    · exact absurd heq.symm WithTop.coe_ne_top
    · exact absurd heq.symm WithTop.coe_ne_top
    · rfl

/-- Versions whose numbers are exact are compared by their precedence. -/
theorem Clear.of_small {a b : Groups} (ha : a.Small) (hb : b.Small) : Clear a b :=
  firstOrder_injOn fun _ hx _ hy => nearestPart_inj (ha.parts _ hx) (hb.parts _ hy)

/-- Versions have their precedence, in lists as well, and are read back from their texts. -/
theorem semver_precedence (display : Display) :
    (∀ v w : VersionText, ∃ a b, parse v.text = .ok a ∧ parse w.text = .ok b ∧
      (a.compare b = precedence v.groups w.groups ↔ Clear v.groups w.groups)) ∧
    (∀ versions : List VersionText, AllClear versions →
      ∃ result, sorted (versions.map fun v => .text v.text) =
        .ok (result.map fun v => .text v.text) ∧ Ascends versions result) ∧
    (∀ (satisfies : Version → Bool) (versions : List VersionText), AllClear versions →
      ∃ best, maxSatisfying (versions.map VersionText.text) satisfies = .ok best ∧
        Selected satisfies versions best) ∧
    ∀ v : VersionText, ∃ a, parse v.text = .ok a ∧
      (parse (a.toText display.text) = .ok a ↔ v.groups.Finite) :=
  ⟨fun v w => ⟨_, _, v.parse_text, w.parse_text, compare_precedence _ _⟩,
    fun _ h => sorted_ascends h, fun satisfies _ h => maxSatisfying_selected satisfies h,
    fun v => ⟨_, v.parse_text, v.parse_toText display⟩⟩

def digitsText (n : Nat) : Text :=
  if n = 0 then ['0'] else ((Nat.digits 10 n).map Nat.digitChar).reverse

theorem digitChar_digit : ∀ d < 10, (Nat.digitChar d).isDigit = true ∧
    (Nat.digitChar d).toNat - 48 = d ∧ (Nat.digitChar d = '0' → d = 0) := by decide

theorem value_digitsText (n : Nat) : value (digitsText n) = n := by
  unfold digitsText
  split
  · next hzero => rw [hzero]; rfl
  · rw [value, List.foldl_reverse]
    have hdigits : ∀ d ∈ Nat.digits 10 n, d < 10 := fun d hd => Nat.digits_lt_base (by decide) hd
    have hvalue := Nat.ofDigits_digits 10 n
    conv_rhs => rw [← hvalue]
    generalize Nat.digits 10 n = digits at hdigits
    induction digits with
    | nil => rfl
    | cons d digits ih =>
        have hd := digitChar_digit d (hdigits d List.mem_cons_self)
        rw [List.map_cons, List.foldr_cons, ih fun d hd => hdigits d (List.mem_cons_of_mem _ hd),
          hd.2.1, Nat.ofDigits_cons]
        omega

theorem isNumeral_digitsText (n : Nat) : isNumeral (digitsText n) = true := by
  unfold digitsText
  split
  · decide
  · next hzero =>
      have hdigits : ∀ d ∈ Nat.digits 10 n, d < 10 := fun d hd =>
        Nat.digits_lt_base (by decide) hd
      have hne : Nat.digits 10 n ≠ [] := Nat.digits_ne_nil_iff_ne_zero.mpr hzero
      have hlast := Nat.getLast_digit_ne_zero 10 hzero
      simp only [isNumeral, isNumeric, Bool.and_eq_true, Bool.not_eq_true', List.all_eq_true,
        List.isEmpty_eq_false_iff, Bool.or_eq_true, decide_eq_true_eq, List.mem_reverse]
      refine ⟨⟨by simpa using hne, fun c hc => ?_⟩, .inr ?_⟩
      · obtain ⟨d, hd, rfl⟩ := List.mem_map.mp hc
        exact (digitChar_digit d (hdigits d hd)).1
      · rw [List.head?_reverse, List.getLast?_map, List.getLast?_eq_some_getLast hne, Option.map_some]
        intro heq
        exact hlast ((digitChar_digit _ (hdigits _ (List.getLast_mem hne))).2.2 (Option.some.inj heq))

open Classical in
/-- The least whole number of a double, in digits. -/
noncomputable def Display.least : Display where
  text x :=
    if h : ∃ n : Nat, F64.ofInt n = x ∧ F64.nearest n ≠ ⊤ then digitsText (Nat.find h)
    else "inf".toList
  finite n hn := by
    have hexists : ∃ m : Nat, F64.ofInt m = F64.ofInt n ∧ F64.nearest m ≠ ⊤ := ⟨n, rfl, hn⟩
    rw [dif_pos hexists]
    refine ⟨isNumeral_digitsText _, ?_⟩
    rw [toNumber, value_digitsText]
    exact (Nat.find_spec hexists).1
  infinite n hn := by
    rw [dif_neg]
    rintro ⟨m, heq, hm⟩
    exact hm ((F64.nearest_congr heq).trans hn)

def one : VersionText := ⟨"1.0.0".toList, ⟨['1'], ['0'], ['0'], [], []⟩, by rfl⟩
def oneBeta : VersionText :=
  ⟨"1.0.0-beta.2".toList, ⟨['1'], ['0'], ['0'], ["beta".toList, ['2']], []⟩, by rfl⟩

theorem allClear_one : AllClear [one, oneBeta] := by
  have hone : one.groups.Small := by
    refine ⟨by decide, by decide, by decide, ?_⟩
    decide
  have hbeta : oneBeta.groups.Small := by
    refine ⟨by decide, by decide, by decide, ?_⟩
    decide
  have hsmall : ∀ v ∈ [one, oneBeta], v.groups.Small := by
    intro v hv
    simp only [List.mem_cons, List.not_mem_nil, or_false] at hv
    rcases hv with rfl | rfl
    · exact hone
    · exact hbeta
  exact fun v hv w hw => .of_small (hsmall v hv) (hsmall w hw)

theorem semver_precedence_one :
    (∃ result, sorted [.text "1.0.0".toList, .text "1.0.0-beta.2".toList] =
      .ok (result.map fun v => .text v.text) ∧ Ascends [one, oneBeta] result) ∧
    ∃ best, maxSatisfying ["1.0.0".toList, "1.0.0-beta.2".toList] (fun _ => true) = .ok best ∧
      Selected (fun _ => true) [one, oneBeta] best :=
  ⟨(semver_precedence .least).2.1 [one, oneBeta] allClear_one,
    (semver_precedence .least).2.2.1 (fun _ => true) [one, oneBeta] allClear_one⟩

/-- Two pre-releases whose numbers have the same double. -/
def near : VersionText :=
  ⟨"1.0.0-9007199254740992".toList, ⟨['1'], ['0'], ['0'], ["9007199254740992".toList], []⟩, by rfl⟩
def nearer : VersionText :=
  ⟨"1.0.0-9007199254740993".toList, ⟨['1'], ['0'], ['0'], ["9007199254740993".toList], []⟩, by rfl⟩

theorem semver_precedence_fails :
    parse near.text = .ok near.version ∧ parse nearer.text = .ok nearer.version ∧
      near.version.compare nearer.version = 0 ∧ precedence near.groups nearer.groups = -1 := by
  have hnear : near.groups.parts =
      [number 1, number 0, number 0, number 9007199254740992] := by rfl
  have hnearer : nearer.groups.parts =
      [number 1, number 0, number 0, number 9007199254740993] := by rfl
  refine ⟨near.parse_text, nearer.parse_text, by decide +kernel, ?_⟩
  rw [precedence, hnear, hnearer]
  simp only [order_cons, Lexical.order_self, if_true]
  rw [order_number]
  decide

end Zuri.Semver
