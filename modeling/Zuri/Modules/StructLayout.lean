import Zuri.Modules.Struct

/-!
One layout for three engines. Each engine moves by a step of its own over a group; the steps are
the same as long as no group seeks, none writes a terminator into no room, and none backs up past
the start of the record.
-/

namespace Zuri.Struct

variable {m : Machine}

def Group.times (g : Group) : Nat := g.repeat.times 0

def Group.target (g : Group) : Nat :=
  match g.repeat with
  | .count n => n
  | _ => 0

def elemSize (code : Char) : Nat :=
  match codeSize code with
  | .ok size => size
  | .error _ => 0

/-- A group whose size no data decides. -/
structure Fixed (g : Group) : Prop where
  valid : isValidCode g.code = true
  noStar : g.repeat ≠ .star

/-- The bytes of a group that goes forward. -/
def Group.extent (g : Group) : Nat :=
  match kind g.code with
  | .text | .pad => g.times
  | .hex => (g.times + 1) / 2
  | .value => elemSize g.code * g.times
  | .back | .seek => 0

def sizeAfter (size : Nat) (g : Group) : Nat :=
  match kind g.code with
  | .back => size - g.times
  | .seek => max size g.target
  | _ => size + g.extent

/-- The size as it is counted. -/
def countAfter (size : Nat) (g : Group) : Nat :=
  match kind g.code with
  | .back => size - g.times
  | .seek => max size g.target
  | _ => usize (size + g.extent)

def lengthAfter (length : Nat) (g : Group) : Nat :=
  if g.code = 'Z' then length + max g.times 1 else sizeAfter length g

def posAfter (pos : Nat) (g : Group) : Nat :=
  match kind g.code with
  | .seek => g.target
  | _ => sizeAfter pos g

theorem bind_eq_ok {ε α β : Type} {x : Except ε α} {f : α → Except ε β} {b : β} :
    (x >>= f) = .ok b ↔ ∃ a, x = .ok a ∧ f a = .ok b := by
  cases x with
  | error e =>
      constructor
      · exact fun h => nomatch h
      · rintro ⟨_, h, _⟩
        exact nomatch h
  | ok a =>
      constructor
      · exact fun h => ⟨a, rfl, h⟩
      · rintro ⟨_, ha, h⟩
        rw [Except.ok.inj ha]
        exact h

theorem Fixed.count {g : Group} (h : Fixed g) : repeatCountOf g.repeat = .ok g.times := by
  obtain ⟨code, rep, name⟩ := g
  cases rep with
  | one | count n => rfl
  | star => exact absurd rfl h.noStar

theorem codeSize_valid {code : Char} (hvalid : isValidCode code = true)
    (hkind : kind code = .value) : codeSize code = .ok (elemSize code) := by
  have hall : ∀ c ∈ VALID_CODES, kind c = .value → codeSize c = .ok (elemSize c) :=
    List.forall_iff_forall_mem.mp (by decide)
  exact hall code (List.contains_iff_mem.mp hvalid) hkind

theorem sizeGroup_eq {g : Group} (h : Fixed g) (size : Nat) :
    sizeGroup size g = .ok (countAfter size g) := by
  unfold sizeGroup countAfter Group.extent
  cases hkind : kind g.code with
  | text | hex | pad | back =>
      rw [h.count]
      rfl
  | value =>
      rw [codeSize_valid h.valid hkind, h.count]
      exact congrArg Except.ok (Nat.add_mod_mod _ _ _)
  | seek =>
      obtain ⟨code, rep, name⟩ := g
      cases rep with
      | one | count n => rfl
      | star => exact absurd rfl h.noStar

theorem foldlM_size {groups : List Group} (h : ∀ g ∈ groups, Fixed g) (size : Nat) :
    groups.foldlM sizeGroup size = .ok (groups.foldl countAfter size) := by
  induction groups generalizing size with
  | nil => rfl
  | cons g groups ih =>
      rw [List.foldlM_cons, sizeGroup_eq (h g List.mem_cons_self)]
      exact ih (fun g hg => h g (List.mem_cons_of_mem _ hg)) _

theorem length_leBytes (size n : Nat) : (leBytes size n).length = size := by
  induction size generalizing n with
  | zero => rfl
  | succ size ih => rw [leBytes, List.length_cons, ih]

theorem length_ordered (endian : Endian) (bytes : List UInt8) :
    (ordered m endian bytes).length = bytes.length := by
  unfold ordered
  cases endian with
  | little => rfl
  | big => exact List.length_reverse
  | native =>
      simp only
      split
      · rfl
      · exact List.length_reverse

theorem length_hexBytes (code : Char) (digits : List Nat) :
    (hexBytes code digits).length = (digits.length + 1) / 2 := by
  induction digits using hexBytes.induct with
  | case1 => rfl
  | case2 d => simp [hexBytes]
  | case3 d d' digits ih =>
      simp only [hexBytes, List.length_cons, ih]
      omega

theorem length_writeHex (text : List Char) (wantDigits : Nat) (code : Char) :
    (writeHex text wantDigits code).length = (wantDigits + 1) / 2 := by
  unfold writeHex
  simp only [length_hexBytes, List.length_append, List.length_replicate, List.length_map,
    List.length_take]
  congr 2
  omega

theorem length_writePaddedString (s : List UInt8) (wantLen : Nat) (code : Char) :
    (writePaddedString s wantLen code).length = if code = 'Z' then max wantLen 1 else wantLen := by
  unfold writePaddedString
  split
  · simp only [List.length_append, List.length_replicate, List.length_take]
    omega
  · simp only [List.length_append, List.length_replicate, List.length_take]
    omega

theorem intSpec_of_float {code : Char} {spec : Nat × Endian} (h : codeFloatSpec code = some spec) :
    codeIntSpec code = none := by
  unfold codeFloatSpec at h
  split at h
  all_goals first
    | rfl
    | exact nomatch h

theorem length_writeGroupValue {code : Char} {v : Value} {bytes : List UInt8} {size : Nat}
    (hsize : codeSize code = .ok size) (h : writeGroupValue m code v = .ok bytes) :
    bytes.length = size := by
  unfold writeGroupValue at h
  unfold codeSize at hsize
  split at h
  · next hbool =>
      subst hbool
      obtain rfl := Except.ok.inj h
      exact Except.ok.inj hsize
  · cases hfloat : codeFloatSpec code with
    | some spec =>
        obtain ⟨n, endian⟩ := spec
        rw [intSpec_of_float hfloat, hfloat] at hsize
        obtain rfl : n = size := Except.ok.inj hsize
        rw [hfloat] at h
        cases hx : valueToF64 v with
        | error e =>
            rw [hx] at h
            exact nomatch h
        | ok x =>
            rw [hx] at h
            obtain rfl := Except.ok.inj h
            rw [writeFloat, length_ordered, length_leBytes]
    | none =>
        rw [hfloat] at h
        cases hint : codeIntSpec code with
        | none =>
            rw [hint, hfloat] at hsize
            exact nomatch hsize
        | some spec =>
            obtain ⟨n, endian, signed⟩ := spec
            rw [hint] at hsize
            obtain rfl : n = size := Except.ok.inj hsize
            simp only [hint] at h
            cases hv : valueToI128 m v with
            | error e =>
                rw [hv] at h
                exact nomatch h
            | ok v' =>
                rw [hv] at h
                obtain rfl := Except.ok.inj h
                simp only [writeInt, length_ordered, length_leBytes]

theorem length_packMany {code : Char} {items : List Value} {size : Nat}
    (hsize : codeSize code = .ok size) (count : Nat) {s s' : Packing}
    (h : packMany m code items count s = .ok s') :
    s'.out.length = s.out.length + size * count := by
  induction count generalizing s with
  | zero =>
      obtain rfl := Except.ok.inj h
      rfl
  | succ count ih =>
      rw [packMany] at h
      obtain ⟨v, -, h⟩ := bind_eq_ok.mp h
      obtain ⟨bytes, hbytes, h⟩ := bind_eq_ok.mp h
      rw [ih h, List.length_append, length_writeGroupValue hsize hbytes, Nat.mul_succ]
      omega

theorem ne_Z {code : Char} (h : kind code ≠ .text) : code ≠ 'Z' := by
  rintro rfl
  exact h rfl

theorem Group.times_eq (g : Group) (star : Nat) (h : g.repeat ≠ .star) :
    g.repeat.times star = g.times := by
  obtain ⟨code, rep, name⟩ := g
  cases rep with
  | one | count n => rfl
  | star => exact absurd rfl h

theorem length_packGroup {items : List Value} {g : Group} (hg : Fixed g) {s s' : Packing}
    (h : packGroup m items s g = .ok s') : s'.out.length = lengthAfter s.out.length g := by
  unfold packGroup at h
  unfold lengthAfter sizeAfter Group.extent
  cases hkind : kind g.code with
  | text =>
      simp only [hkind] at h ⊢
      obtain ⟨v, -, h⟩ := bind_eq_ok.mp h
      obtain ⟨bytes, -, h⟩ := bind_eq_ok.mp h
      rw [g.times_eq _ hg.noStar] at h
      obtain rfl := Except.ok.inj h
      rw [List.length_append, length_writePaddedString]
      split
      · rfl
      · rfl
  | hex =>
      have hZ := ne_Z (show kind g.code ≠ .text by rw [hkind]; decide)
      simp only [hkind] at h ⊢
      obtain ⟨v, -, h⟩ := bind_eq_ok.mp h
      obtain ⟨hex, -, h⟩ := bind_eq_ok.mp h
      rw [g.times_eq _ hg.noStar] at h
      obtain rfl := Except.ok.inj h
      rw [if_neg hZ, List.length_append, length_writeHex]
  | pad =>
      have hZ := ne_Z (show kind g.code ≠ .text by rw [hkind]; decide)
      simp only [hkind, hg.count] at h ⊢
      obtain rfl := Except.ok.inj h
      rw [if_neg hZ, List.length_append, List.length_replicate]
  | back =>
      have hZ := ne_Z (show kind g.code ≠ .text by rw [hkind]; decide)
      simp only [hkind, hg.count] at h ⊢
      obtain rfl := Except.ok.inj h
      rw [if_neg hZ]
      exact List.length_take_of_le (Nat.sub_le _ _)
  | seek =>
      have hZ := ne_Z (show kind g.code ≠ .text by rw [hkind]; decide)
      obtain ⟨code, rep, name⟩ := g
      simp only at hkind hZ
      simp only [hkind] at h ⊢
      rw [if_neg hZ]
      cases rep with
      | one =>
          obtain rfl := Except.ok.inj h
          exact (Nat.max_eq_left (Nat.zero_le _)).symm
      | count n =>
          obtain rfl := Except.ok.inj h
          simp only [List.length_append, List.length_replicate, Group.target]
          omega
      | star => exact absurd rfl hg.noStar
  | value =>
      have hZ := ne_Z (show kind g.code ≠ .text by rw [hkind]; decide)
      simp only [hkind] at h ⊢
      rw [g.times_eq _ hg.noStar] at h
      rw [if_neg hZ, length_packMany (codeSize_valid hg.valid hkind) _ h]

theorem length_foldlM_pack {items : List Value} {groups : List Group}
    (hg : ∀ g ∈ groups, Fixed g) {s s' : Packing}
    (h : groups.foldlM (packGroup m items) s = .ok s') :
    s'.out.length = groups.foldl lengthAfter s.out.length := by
  induction groups generalizing s with
  | nil =>
      obtain rfl := Except.ok.inj h
      rfl
  | cons g groups ih =>
      rw [List.foldlM_cons] at h
      obtain ⟨t, ht, h⟩ := bind_eq_ok.mp h
      rw [ih (fun g hg' => hg g (List.mem_cons_of_mem _ hg')) h,
        length_packGroup (hg g List.mem_cons_self) ht]
      rfl

theorem checkBounds_ok {data : List UInt8} {pos need : Nat} :
    checkBounds data pos need = .ok () ↔ pos + need ≤ data.length := by
  unfold checkBounds
  split
  · next h => exact iff_of_true rfl h
  · next h => exact iff_of_false (fun h => nomatch h) h

theorem unpackMany_ok {g : Group} {data : List UInt8} {size count : Nat} (left : Nat)
    {s s' : Unpacking} (h : unpackMany m g data size count left s = .ok s') :
    s'.pos = s.pos + size * left ∧ (s.pos ≤ data.length → s'.pos ≤ data.length) := by
  induction left generalizing s with
  | zero =>
      obtain rfl := Except.ok.inj h
      exact ⟨rfl, id⟩
  | succ left ih =>
      rw [unpackMany] at h
      obtain ⟨⟨⟩, hbounds, h⟩ := bind_eq_ok.mp h
      obtain ⟨hpos, hle⟩ := ih h
      refine ⟨?_, fun _ => hle (checkBounds_ok.mp hbounds)⟩
      rw [hpos, Nat.mul_succ]
      simp only
      omega

/-- A group that is unpacked moves the position by its step, and not past the data. -/
theorem unpackGroup_pos {data : List UInt8} {g : Group} (hg : Fixed g) {s s' : Unpacking}
    (h : unpackGroup m data s g = .ok s') :
    s'.pos = posAfter s.pos g ∧ (s.pos ≤ data.length → s'.pos ≤ data.length) := by
  unfold unpackGroup at h
  unfold posAfter sizeAfter Group.extent
  cases hkind : kind g.code with
  | text =>
      simp only [hkind] at h ⊢
      rw [g.times_eq _ hg.noStar] at h
      obtain ⟨⟨⟩, hbounds, h⟩ := bind_eq_ok.mp h
      obtain rfl := Except.ok.inj h
      exact ⟨rfl, fun _ => checkBounds_ok.mp hbounds⟩
  | hex =>
      simp only [hkind] at h ⊢
      rw [g.times_eq _ hg.noStar] at h
      obtain ⟨⟨⟩, hbounds, h⟩ := bind_eq_ok.mp h
      obtain rfl := Except.ok.inj h
      exact ⟨rfl, fun _ => checkBounds_ok.mp hbounds⟩
  | pad =>
      simp only [hkind, hg.count] at h ⊢
      obtain ⟨n, hn, h⟩ := bind_eq_ok.mp h
      obtain rfl := Except.ok.inj hn
      obtain ⟨⟨⟩, hbounds, h⟩ := bind_eq_ok.mp h
      obtain rfl := Except.ok.inj h
      exact ⟨rfl, fun _ => checkBounds_ok.mp hbounds⟩
  | back =>
      simp only [hkind, hg.count] at h ⊢
      obtain rfl := Except.ok.inj h
      exact ⟨rfl, fun hle => Nat.le_trans (Nat.sub_le _ _) hle⟩
  | seek =>
      obtain ⟨code, rep, name⟩ := g
      simp only at hkind
      simp only [hkind] at h ⊢
      cases rep with
      | one =>
          obtain rfl := Except.ok.inj h
          exact ⟨rfl, fun _ => Nat.zero_le _⟩
      | count n =>
          obtain ⟨target, htarget, h⟩ := bind_eq_ok.mp h
          obtain rfl := Except.ok.inj htarget
          split at h
          · exact nomatch h
          · next hlt =>
              obtain rfl := Except.ok.inj h
              exact ⟨rfl, fun _ => Nat.le_of_not_lt hlt⟩
      | star => exact absurd rfl hg.noStar
  | value =>
      simp only [hkind] at h ⊢
      obtain ⟨size, hsize, h⟩ := bind_eq_ok.mp h
      rw [codeSize_valid hg.valid hkind] at hsize
      obtain rfl := Except.ok.inj hsize
      simp only [g.times_eq _ hg.noStar] at h
      exact unpackMany_ok _ h

theorem unpackMany_exists {g : Group} {data : List UInt8} {size count : Nat} (left : Nat)
    {s : Unpacking} (h : s.pos + size * left ≤ data.length) :
    ∃ s', unpackMany m g data size count left s = .ok s' := by
  induction left generalizing s with
  | zero => exact ⟨s, rfl⟩
  | succ left ih =>
      rw [Nat.mul_succ] at h
      have hbounds : checkBounds data s.pos size = .ok () := checkBounds_ok.mpr (by omega)
      rw [unpackMany, hbounds]
      refine ih ?_
      simp only
      omega

/-- With enough data a group is unpacked. -/
theorem unpackGroup_exists {data : List UInt8} {g : Group} (hg : Fixed g) {s : Unpacking}
    (h : posAfter s.pos g ≤ data.length) : ∃ s', unpackGroup m data s g = .ok s' := by
  unfold unpackGroup
  unfold posAfter sizeAfter Group.extent at h
  cases hkind : kind g.code with
  | text | hex =>
      simp only [hkind] at h ⊢
      rw [g.times_eq _ hg.noStar, checkBounds_ok.mpr h]
      exact ⟨_, rfl⟩
  | pad =>
      simp only [hkind, hg.count] at h ⊢
      refine ⟨{ s with pos := s.pos + g.times }, bind_eq_ok.mpr ⟨_, rfl, ?_⟩⟩
      rw [checkBounds_ok.mpr h]
      rfl
  | back =>
      simp only [hg.count]
      exact ⟨_, rfl⟩
  | seek =>
      obtain ⟨code, rep, name⟩ := g
      simp only at hkind
      simp only [hkind] at h ⊢
      cases rep with
      | one => exact ⟨{ s with pos := 0 }, rfl⟩
      | count n =>
          refine ⟨{ s with pos := n }, bind_eq_ok.mpr ⟨n, rfl, ?_⟩⟩
          exact if_neg (Nat.not_lt.mpr h)
      | star => exact absurd rfl hg.noStar
  | value =>
      simp only [hkind] at h ⊢
      simp only [codeSize_valid hg.valid hkind, g.times_eq _ hg.noStar]
      exact unpackMany_exists _ h

def Unpacking.shift (base : Nat) (s : Unpacking) : Unpacking := { s with pos := base + s.pos }

theorem pushNamed_shift (base : Nat) (s : Unpacking) (name : Option String) (val : Value)
    (count k : Nat) :
    pushNamed (s.shift base) name val count k = (pushNamed s name val count k).shift base := by
  unfold pushNamed
  cases name with
  | none | some _ => rfl

/-- A part of the data from an offset on. -/
structure Slice (data slice : List UInt8) (base : Nat) : Prop where
  fits : base + slice.length ≤ data.length
  bytes : ∀ pos n, pos + n ≤ slice.length →
    (data.drop (base + pos)).take n = (slice.drop pos).take n

theorem slice_take {data : List UInt8} {base size : Nat} (h : base + size ≤ data.length) :
    Slice data ((data.drop base).take size) base := by
  have hlen : ((data.drop base).take size).length = size := by
    rw [List.length_take, List.length_drop]
    omega
  refine ⟨by rw [hlen]; exact h, fun pos n hn => ?_⟩
  rw [hlen] at hn
  rw [List.drop_take, List.take_take, List.drop_drop, Nat.min_eq_left (by omega)]

variable {data slice : List UInt8} {base : Nat}

theorem Slice.checkBounds (h : Slice data slice base) {pos need : Nat}
    (hneed : pos + need ≤ slice.length) : checkBounds data (base + pos) need = .ok () := by
  have hfits := h.fits
  exact checkBounds_ok.mpr (by omega)

theorem unpackMany_shift (h : Slice data slice base) {g : Group} {size count : Nat} (left : Nat)
    {s s' : Unpacking} (hs : unpackMany m g slice size count left s = .ok s') :
    unpackMany m g data size count left (s.shift base) = .ok (s'.shift base) := by
  induction left generalizing s with
  | zero =>
      obtain rfl := Except.ok.inj hs
      rfl
  | succ left ih =>
      rw [unpackMany] at hs ⊢
      obtain ⟨⟨⟩, hbounds, hs⟩ := bind_eq_ok.mp hs
      have hneed := checkBounds_ok.mp hbounds
      refine bind_eq_ok.mpr ⟨(), h.checkBounds hneed, ?_⟩
      have hrest := ih hs
      simp only [Unpacking.shift] at hrest ⊢
      rw [h.bytes _ _ hneed]
      have hpush := pushNamed_shift base s g.name
        (readGroupValue m g.code ((slice.drop s.pos).take size)) count (count - (left + 1))
      unfold Unpacking.shift at hpush
      rw [hpush, Nat.add_assoc]
      exact hrest

/-- What a group makes of a slice it makes of the slice within the data. -/
theorem unpackGroup_shift (h : Slice data slice base) {g : Group} (hg : Fixed g)
    (hseek : kind g.code ≠ .seek) {s s' : Unpacking} (hback : kind g.code = .back → g.times ≤ s.pos)
    (hs : unpackGroup m slice s g = .ok s') :
    unpackGroup m data (s.shift base) g = .ok (s'.shift base) := by
  unfold unpackGroup at hs ⊢
  cases hkind : kind g.code with
  | text | hex =>
      simp only [hkind] at hs ⊢
      rw [g.times_eq _ hg.noStar] at hs ⊢
      obtain ⟨⟨⟩, hbounds, hs⟩ := bind_eq_ok.mp hs
      have hneed := checkBounds_ok.mp hbounds
      obtain rfl := Except.ok.inj hs
      refine bind_eq_ok.mpr ⟨(), h.checkBounds hneed, ?_⟩
      rw [pushNamed_shift]
      simp only [Unpacking.shift, h.bytes _ _ hneed, Nat.add_assoc]
      rfl
  | pad =>
      simp only [hkind, hg.count] at hs ⊢
      obtain ⟨n, hn, hs⟩ := bind_eq_ok.mp hs
      obtain rfl := Except.ok.inj hn
      obtain ⟨⟨⟩, hbounds, hs⟩ := bind_eq_ok.mp hs
      have hneed := checkBounds_ok.mp hbounds
      obtain rfl := Except.ok.inj hs
      refine bind_eq_ok.mpr ⟨g.times, rfl, bind_eq_ok.mpr ⟨(), h.checkBounds hneed, ?_⟩⟩
      simp only [Unpacking.shift, Nat.add_assoc]
      rfl
  | back =>
      simp only [hkind, hg.count] at hs ⊢
      obtain rfl := Except.ok.inj hs
      refine bind_eq_ok.mpr ⟨g.times, rfl, ?_⟩
      simp only [Unpacking.shift, Nat.add_sub_assoc (hback hkind)]
      rfl
  | seek => exact absurd hkind hseek
  | value =>
      simp only [hkind] at hs ⊢
      obtain ⟨size, hsize, hs⟩ := bind_eq_ok.mp hs
      refine bind_eq_ok.mpr ⟨size, hsize, ?_⟩
      simp only [g.times_eq _ hg.noStar] at hs ⊢
      exact unpackMany_shift h _ hs

end Zuri.Struct
