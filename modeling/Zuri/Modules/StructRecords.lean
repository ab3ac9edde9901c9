import Zuri.Modules.StructLayout

/-!
When the engines agree. A format is straight if no group seeks, no string is written with a
terminator that has no room, and none backs up past the start of the record; records follow one
another if, in addition, nothing lies past where the record ends.
-/

namespace Zuri.Struct

variable {m : Machine} {data slice : List UInt8} {base : Nat}

def Straight : Nat → List Group → Prop
  | _, [] => True
  | size, g :: groups =>
      kind g.code ≠ .seek ∧ (kind g.code = .back → g.times ≤ size) ∧
        (g.code = 'Z' → g.times ≠ 0) ∧ Straight (sizeAfter size g) groups

instance Straight.decidable : (size : Nat) → (groups : List Group) → Decidable (Straight size groups)
  | _, [] => .isTrue trivial
  | size, g :: groups =>
      @instDecidableAnd _ _ inferInstance (@instDecidableAnd _ _ inferInstance
        (@instDecidableAnd _ _ inferInstance (Straight.decidable (sizeAfter size g) groups)))

/-- The highest position on the way. -/
def highest : Nat → List Group → Nat
  | pos, [] => pos
  | pos, g :: groups => max pos (highest (posAfter pos g) groups)

def recordSize (groups : List Group) : Nat := groups.foldl sizeAfter 0

/-- The size of a record as it is counted. -/
def countedSize (groups : List Group) : Nat := groups.foldl countAfter 0

theorem le_highest (pos : Nat) (groups : List Group) : pos ≤ highest pos groups := by
  cases groups with
  | nil => exact Nat.le_refl _
  | cons g groups => exact Nat.le_max_left _ _

theorem countAfter_le {a b : Nat} (h : a ≤ b) (g : Group) : countAfter a g ≤ sizeAfter b g := by
  unfold countAfter sizeAfter
  cases kind g.code with
  | back => exact Nat.sub_le_sub_right h _
  | seek => exact Nat.max_le.mpr ⟨Nat.le_trans h (Nat.le_max_left _ _), Nat.le_max_right _ _⟩
  | _ => exact Nat.le_trans (Nat.mod_le _ _) (Nat.add_le_add_right h _)

/-- Counting never comes to more than the size. -/
theorem foldl_countAfter_le (groups : List Group) {a b : Nat} (h : a ≤ b) :
    groups.foldl countAfter a ≤ groups.foldl sizeAfter b := by
  induction groups generalizing a b with
  | nil => exact h
  | cons g groups ih => exact ih (countAfter_le h g)

theorem countedSize_lt {groups : List Group} (hseek : ∀ g ∈ groups, kind g.code ≠ .seek) :
    countedSize groups < 2 ^ 64 := by
  have key : ∀ size, size < 2 ^ 64 → groups.foldl countAfter size < 2 ^ 64 := by
    induction groups with
    | nil => exact fun _ h => h
    | cons g groups ih =>
        intro size hsize
        refine ih (fun g hg => hseek g (List.mem_cons_of_mem _ hg)) _ ?_
        have hnot := hseek g List.mem_cons_self
        unfold countAfter
        cases hkind : kind g.code with
        | back => exact Nat.lt_of_le_of_lt (Nat.sub_le _ _) hsize
        | seek => exact absurd hkind hnot
        | _ => exact Nat.mod_lt _ (Nat.two_pow_pos 64)
  exact key 0 (Nat.two_pow_pos 64)

theorem lengthAfter_eq {length : Nat} {g : Group} (hZ : g.code = 'Z' → g.times ≠ 0) :
    lengthAfter length g = sizeAfter length g := by
  unfold lengthAfter
  split
  · next hcode =>
      have htimes := hZ hcode
      rw [sizeAfter, Group.extent, hcode]
      change length + max g.times 1 = length + g.times
      omega
  · rfl

theorem posAfter_eq {pos : Nat} {g : Group} (hseek : kind g.code ≠ .seek) :
    posAfter pos g = sizeAfter pos g := by
  unfold posAfter
  split
  · next h => exact absurd h hseek
  · rfl

theorem foldl_posAfter_eq {groups : List Group} (hseek : ∀ g ∈ groups, kind g.code ≠ .seek)
    {pos : Nat} : groups.foldl posAfter pos = groups.foldl sizeAfter pos := by
  induction groups generalizing pos with
  | nil => rfl
  | cons g groups ih =>
      rw [List.foldl_cons, List.foldl_cons, posAfter_eq (hseek g List.mem_cons_self),
        ih fun g hg => hseek g (List.mem_cons_of_mem _ hg)]

/-- Below 2^64 all the way, the count is the size. -/
theorem foldl_countAfter_eq {groups : List Group} (hseek : ∀ g ∈ groups, kind g.code ≠ .seek)
    (size : Nat) (h : highest size groups < 2 ^ 64) :
    groups.foldl countAfter size = groups.foldl sizeAfter size := by
  induction groups generalizing size with
  | nil => rfl
  | cons g groups ih =>
      have hnot := hseek g List.mem_cons_self
      have hrest : highest (sizeAfter size g) groups < 2 ^ 64 :=
        posAfter_eq hnot ▸ Nat.lt_of_le_of_lt (Nat.le_max_right _ _) h
      have hnext := Nat.lt_of_le_of_lt (le_highest _ groups) hrest
      have hstep : countAfter size g = sizeAfter size g := by
        unfold countAfter
        unfold sizeAfter at hnext ⊢
        cases hkind : kind g.code with
        | back => rfl
        | seek => rfl
        | _ =>
            simp only [hkind] at hnext
            exact Nat.mod_eq_of_lt hnext
      rw [List.foldl_cons, List.foldl_cons, hstep]
      exact ih (fun g hg => hseek g (List.mem_cons_of_mem _ hg)) _ hrest

theorem sizeAfter_forward {g : Group} (hseek : kind g.code ≠ .seek) (hback : kind g.code ≠ .back)
    (size : Nat) : sizeAfter size g = size + g.extent := by
  unfold sizeAfter
  split
  · next h => exact absurd h hback
  · next h => exact absurd h hseek
  · rfl

theorem sizeAfter_back {g : Group} (hback : kind g.code = .back) (size : Nat) :
    sizeAfter size g = size - g.times := by
  rw [sizeAfter, hback]

theorem sizeAfter_shift {size : Nat} {g : Group} (hseek : kind g.code ≠ .seek)
    (hback : kind g.code = .back → g.times ≤ size) (base : Nat) :
    sizeAfter (base + size) g = base + sizeAfter size g := by
  unfold sizeAfter
  split
  · next hkind => exact Nat.add_sub_assoc (hback hkind) base
  · next hkind => exact absurd hkind hseek
  · exact Nat.add_assoc _ _ _

theorem Straight.length {size : Nat} {groups : List Group} (h : Straight size groups) :
    groups.foldl lengthAfter size = groups.foldl sizeAfter size := by
  induction groups generalizing size with
  | nil => rfl
  | cons g groups ih =>
      obtain ⟨-, -, hZ, hrest⟩ := h
      rw [List.foldl_cons, List.foldl_cons, lengthAfter_eq hZ, ih hrest]

theorem Straight.pos {size : Nat} {groups : List Group} (h : Straight size groups) (base : Nat) :
    groups.foldl posAfter (base + size) = base + groups.foldl sizeAfter size := by
  induction groups generalizing size with
  | nil => rfl
  | cons g groups ih =>
      obtain ⟨hseek, hback, -, hrest⟩ := h
      rw [List.foldl_cons, List.foldl_cons, posAfter_eq hseek, sizeAfter_shift hseek hback, ih hrest]

theorem foldlM_unpack_pos {groups : List Group} (hg : ∀ g ∈ groups, Fixed g) {s s' : Unpacking}
    (h : groups.foldlM (unpackGroup m data) s = .ok s') :
    s'.pos = groups.foldl posAfter s.pos := by
  induction groups generalizing s with
  | nil =>
      obtain rfl := Except.ok.inj h
      rfl
  | cons g groups ih =>
      rw [List.foldlM_cons] at h
      obtain ⟨t, ht, h⟩ := bind_eq_ok.mp h
      rw [ih (fun g hg' => hg g (List.mem_cons_of_mem _ hg')) h,
        (unpackGroup_pos (hg g List.mem_cons_self) ht).1]
      rfl

/-- What is unpacked stays within the data. -/
theorem foldlM_unpack_highest {groups : List Group} (hg : ∀ g ∈ groups, Fixed g)
    {s s' : Unpacking} (hle : s.pos ≤ data.length)
    (h : groups.foldlM (unpackGroup m data) s = .ok s') :
    highest s.pos groups ≤ data.length := by
  induction groups generalizing s with
  | nil => exact hle
  | cons g groups ih =>
      rw [List.foldlM_cons] at h
      obtain ⟨t, ht, h⟩ := bind_eq_ok.mp h
      obtain ⟨hpos, hwithin⟩ := unpackGroup_pos (hg g List.mem_cons_self) ht
      have hrest := ih (fun g hg' => hg g (List.mem_cons_of_mem _ hg')) (hwithin hle) h
      rw [hpos] at hrest
      exact Nat.max_le.mpr ⟨hle, hrest⟩

theorem foldlM_unpack_exists {groups : List Group} (hg : ∀ g ∈ groups, Fixed g) {s : Unpacking}
    (hle : highest s.pos groups ≤ data.length) :
    ∃ s', groups.foldlM (unpackGroup m data) s = .ok s' := by
  induction groups generalizing s with
  | nil => exact ⟨s, rfl⟩
  | cons g groups ih =>
      have hfixed := hg g List.mem_cons_self
      have hrest := Nat.le_trans (Nat.le_max_right _ _) hle
      obtain ⟨t, ht⟩ := unpackGroup_exists hfixed (m := m)
        (Nat.le_trans (le_highest _ _) hrest)
      rw [← (unpackGroup_pos hfixed ht).1] at hrest
      obtain ⟨s', hs'⟩ := ih (fun g hg' => hg g (List.mem_cons_of_mem _ hg')) hrest
      exact ⟨s', by rw [List.foldlM_cons, ht]; exact hs'⟩

theorem foldlM_unpack_shift (hslice : Slice data slice base) {groups : List Group}
    (hg : ∀ g ∈ groups, Fixed g) {size : Nat} (hstraight : Straight size groups)
    {s s' : Unpacking} (hpos : s.pos = size)
    (h : groups.foldlM (unpackGroup m slice) s = .ok s') :
    groups.foldlM (unpackGroup m data) (s.shift base) = .ok (s'.shift base) := by
  induction groups generalizing s size with
  | nil =>
      obtain rfl := Except.ok.inj h
      rfl
  | cons g groups ih =>
      obtain ⟨hseek, hback, -, hrest⟩ := hstraight
      have hfixed := hg g List.mem_cons_self
      rw [List.foldlM_cons] at h ⊢
      obtain ⟨t, ht, h⟩ := bind_eq_ok.mp h
      have ht' := (unpackGroup_pos hfixed ht).1
      rw [posAfter_eq hseek, hpos] at ht'
      rw [unpackGroup_shift hslice hfixed hseek (fun hkind => hpos ▸ hback hkind) ht]
      exact ih (fun g hg' => hg g (List.mem_cons_of_mem _ hg')) hrest ht' h

theorem unpackValues_ok {groups : List Group} {start : Nat} {result : Pairs × Nat} :
    unpackValues m groups data start = .ok result ↔ ∃ s,
      groups.foldlM (unpackGroup m data) { pos := start } = .ok s ∧ (s.result, s.pos) = result := by
  unfold unpackValues
  cases groups.foldlM (unpackGroup m data) { pos := start } with
  | error e =>
      constructor
      · exact fun h => nomatch h
      · rintro ⟨_, h, _⟩
        exact nomatch h
  | ok s =>
      constructor
      · exact fun h => ⟨s, rfl, Except.ok.inj h⟩
      · rintro ⟨_, hs, h⟩
        obtain rfl := Except.ok.inj hs
        exact congrArg Except.ok h

/-- A record in the data is what it is on its own, and the next one starts where it ends. -/
theorem record_unpacked {groups : List Group} (hg : ∀ g ∈ groups, Fixed g)
    (hstraight : Straight 0 groups) (hhigh : highest 0 groups ≤ recordSize groups)
    (hfits : base + recordSize groups ≤ data.length) :
    ∃ pairs, unpackValues m groups ((data.drop base).take (recordSize groups)) 0 =
        .ok (pairs, recordSize groups) ∧
      unpackValues m groups data base = .ok (pairs, base + recordSize groups) := by
  have hslice := slice_take hfits
  have hlen : ((data.drop base).take (recordSize groups)).length = recordSize groups := by
    rw [List.length_take, List.length_drop]
    omega
  obtain ⟨s, hs⟩ := foldlM_unpack_exists hg (m := m) (s := { pos := 0 })
    (hlen.symm ▸ hhigh)
  have hpos : s.pos = recordSize groups := by
    have hstop := foldlM_unpack_pos hg hs
    have hsame := hstraight.pos 0
    rw [Nat.zero_add, Nat.zero_add] at hsame
    exact hstop.trans hsame
  refine ⟨s.result, unpackValues_ok.mpr ⟨s, hs, by rw [hpos]⟩, ?_⟩
  refine unpackValues_ok.mpr ⟨s.shift base, foldlM_unpack_shift hslice hg hstraight rfl hs, ?_⟩
  rw [← hpos]
  rfl

theorem iterRecords_straight {groups : List Group} (hg : ∀ g ∈ groups, Fixed g)
    (hstraight : Straight 0 groups) (hhigh : highest 0 groups ≤ recordSize groups)
    (hsize : recordSize groups ≠ 0) (count done : Nat) (records : List Pairs)
    (hlen : data.length = (done + count) * recordSize groups) :
    ∃ found, iterRecords m groups data (count + 1) (done * recordSize groups) records =
        some (.ok (records ++ found)) ∧ found.length = count ∧
      ∀ k (hk : k < found.length), ∃ pairs stop,
        unpackValues m groups
          ((data.drop ((done + k) * recordSize groups)).take (recordSize groups)) 0 = .ok (pairs, stop) ∧
        found[k] = allocDict pairs := by
  induction count generalizing done records with
  | zero =>
      refine ⟨[], ?_, rfl, fun k hk => absurd hk (Nat.not_lt_zero _)⟩
      rw [iterRecords, if_neg (by rw [hlen]; exact Nat.lt_irrefl _), List.append_nil]
  | succ count ih =>
      have hnext : done * recordSize groups + recordSize groups = (done + 1) * recordSize groups :=
        (Nat.succ_mul _ _).symm
      have hrest : (done + (count + 1)) * recordSize groups =
          (done + 1) * recordSize groups + count * recordSize groups := by
        rw [← Nat.add_mul]
        congr 1
        omega
      obtain ⟨pairs, halone, hwithin⟩ := record_unpacked (m := m) hg hstraight hhigh
        (show done * recordSize groups + recordSize groups ≤ data.length by rw [hlen, hrest]; omega)
      have hmore : done * recordSize groups < data.length := by
        rw [hlen, hrest]
        omega
      obtain ⟨found, hfound, hcount, hall⟩ := ih (done + 1) (records ++ [allocDict pairs])
        (by rw [hlen]; congr 1; omega)
      refine ⟨allocDict pairs :: found, ?_, by rw [List.length_cons, hcount], fun k hk => ?_⟩
      · rw [iterRecords, if_pos hmore, hwithin]
        simp only
        rw [hnext, hfound, List.append_assoc]
        rfl
      · cases k with
        | zero => exact ⟨pairs, _, halone, rfl⟩
        | succ k =>
            obtain ⟨pairs', stop, hunpack, heq⟩ := hall k (Nat.lt_of_succ_lt_succ hk)
            refine ⟨pairs', stop, ?_, heq⟩
            rw [show done + (k + 1) = done + 1 + k by omega]
            exact hunpack

/-- A group that seeks forgets where it was. -/
theorem foldl_posAfter_seek {groups : List Group} {g : Group} (hg : g ∈ groups)
    (hseek : kind g.code = .seek) (a b : Nat) :
    groups.foldl posAfter a = groups.foldl posAfter b := by
  obtain ⟨front, rest, rfl⟩ := List.append_of_mem hg
  have hsame : ∀ pos, posAfter pos g = g.target := by
    intro pos
    rw [posAfter, hseek]
  rw [List.foldl_append, List.foldl_append, List.foldl_cons, List.foldl_cons, hsame, hsame]

/-- No group backs up past the start. -/
def Backs : Nat → List Group → Prop
  | _, [] => True
  | size, g :: groups =>
      (kind g.code = .back → g.times ≤ size) ∧ Backs (sizeAfter size g) groups

/-- A record that is not at the start of the data shows where a group backs up too far. -/
theorem backs_of_pos {groups : List Group} (hseek : ∀ g ∈ groups, kind g.code ≠ .seek)
    {pos size : Nat} (hle : pos ≤ 1 + size)
    (h : groups.foldl posAfter pos = 1 + groups.foldl sizeAfter size) :
    pos = 1 + size ∧ Backs size groups := by
  induction groups generalizing pos size with
  | nil => exact ⟨h, trivial⟩
  | cons g groups ih =>
      have hnot := hseek g List.mem_cons_self
      rw [List.foldl_cons, List.foldl_cons, posAfter_eq hnot] at h
      by_cases hback : kind g.code = .back
      · rw [sizeAfter_back hback, sizeAfter_back hback] at h
        obtain ⟨hpos, hrest⟩ := ih (fun g hg => hseek g (List.mem_cons_of_mem _ hg)) (by omega) h
        refine ⟨by omega, fun _ => by omega, ?_⟩
        rw [sizeAfter_back hback]
        exact hrest
      · rw [sizeAfter_forward hnot hback, sizeAfter_forward hnot hback] at h
        obtain ⟨hpos, hrest⟩ := ih (fun g hg => hseek g (List.mem_cons_of_mem _ hg)) (by omega) h
        refine ⟨by omega, fun hkind => absurd hkind hback, ?_⟩
        rw [sizeAfter_forward hnot hback]
        exact hrest

/-- What is packed shows where a terminator has no room. -/
theorem straight_of_length {groups : List Group} (hseek : ∀ g ∈ groups, kind g.code ≠ .seek)
    {length size : Nat} (hbacks : Backs size groups) (hle : size ≤ length)
    (h : groups.foldl lengthAfter length = groups.foldl sizeAfter size) :
    length = size ∧ Straight size groups := by
  induction groups generalizing length size with
  | nil => exact ⟨h, trivial⟩
  | cons g groups ih =>
      have hnot := hseek g List.mem_cons_self
      obtain ⟨hback, hbacks⟩ := hbacks
      rw [List.foldl_cons, List.foldl_cons] at h
      have hrest := fun hle => ih (fun g hg => hseek g (List.mem_cons_of_mem _ hg)) hbacks hle h
      by_cases hZ : g.code = 'Z'
      · have hkind : kind g.code = .text := by rw [hZ]; rfl
        have hforward : kind g.code ≠ .back := by rw [hkind]; decide
        have hextent : g.extent = g.times := by rw [Group.extent, hkind]
        have hlength : lengthAfter length g = length + max g.times 1 := if_pos hZ
        rw [sizeAfter_forward hnot hforward, hextent, hlength] at hrest
        obtain ⟨heq, hstraight⟩ := hrest (by omega)
        refine ⟨by omega, hnot, hback, fun _ => by omega, ?_⟩
        rw [sizeAfter_forward hnot hforward, hextent]
        exact hstraight
      · have hlength : lengthAfter length g = sizeAfter length g := if_neg hZ
        rw [hlength] at hrest
        by_cases hkind : kind g.code = .back
        · have htimes := hback hkind
          rw [sizeAfter_back hkind, sizeAfter_back hkind] at hrest
          obtain ⟨heq, hstraight⟩ := hrest (by omega)
          refine ⟨by omega, hnot, hback, fun hcode => absurd hcode hZ, ?_⟩
          rw [sizeAfter_back hkind]
          exact hstraight
        · rw [sizeAfter_forward hnot hkind, sizeAfter_forward hnot hkind] at hrest
          obtain ⟨heq, hstraight⟩ := hrest (by omega)
          refine ⟨by omega, hnot, hback, fun hcode => absurd hcode hZ, ?_⟩
          rw [sizeAfter_forward hnot hkind]
          exact hstraight

end Zuri.Struct
