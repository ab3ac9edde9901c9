import Mathlib.Data.List.Nodup
import Zuri.Modules.StructShared
import Zuri.Modules.StructValues

/-!
Values there and back. What is unpacked of a record can be packed again and gives the record, as
long as no code forgets a part of its bytes and no two fields have one key.
-/

namespace Zuri.Struct

variable {m : Machine}

/-- The first bytes, cut into so many of one size. -/
def chunks (size : Nat) : Nat → List UInt8 → List (List UInt8)
  | 0, _ => []
  | count + 1, bytes => bytes.take size :: chunks size count (bytes.drop size)

/-- A group of values, or of hex digits, whose values of these bytes can be written. -/
def PackableGroup (m : Machine) (g : Group) (bytes : List UInt8) : Prop :=
  match kind g.code with
  | .value => ∀ chunk ∈ chunks (elemSize g.code) g.times bytes, Narrow m g.code chunk
  | .hex => True
  | _ => False

/-- A group of values, or of hex digits, that forgets no part of these bytes. -/
def TameGroup (m : Machine) (g : Group) (bytes : List UInt8) : Prop :=
  match kind g.code with
  | .value => ∀ chunk ∈ chunks (elemSize g.code) g.times bytes, Canonical m g.code chunk
  | .hex => g.times % 2 = 0
  | _ => False

/-- Each group of a record has a property of the bytes from it on. -/
def Each (p : Group → List UInt8 → Prop) : List Group → List UInt8 → Prop
  | [], _ => True
  | g :: groups, bytes => p g bytes ∧ Each p groups (bytes.drop g.extent)

theorem length_chunks {size count : Nat} {bytes : List UInt8} (h : size * count ≤ bytes.length) :
    ∀ chunk ∈ chunks size count bytes, chunk.length = size := by
  induction count generalizing bytes with
  | zero => exact fun _ hc => absurd hc List.not_mem_nil
  | succ count ih =>
      rw [Nat.mul_succ] at h
      intro chunk hc
      rcases List.mem_cons.mp hc with rfl | hc
      · rw [List.length_take]
        omega
      · exact ih (by rw [List.length_drop]; omega) chunk hc

theorem pushNamed_values (s : Unpacking) (name : Option String) (val : Value) (count k : Nat) :
    (pushNamed s name val count k).result.map Prod.snd = s.result.map Prod.snd ++ [val] := by
  unfold pushNamed
  cases name with
  | none | some _ => simp

theorem unpackMany_values {g : Group} {data : List UInt8} {size : Nat} (count left : Nat)
    {s : Unpacking} (h : s.pos + size * left ≤ data.length) :
    ∃ s', unpackMany m g data size count left s = .ok s' ∧ s'.pos = s.pos + size * left ∧
      s'.result.map Prod.snd = s.result.map Prod.snd ++
        (chunks size left (data.drop s.pos)).map (readGroupValue m g.code) := by
  induction left generalizing s with
  | zero => exact ⟨s, rfl, rfl, (List.append_nil _).symm⟩
  | succ left ih =>
      rw [Nat.mul_succ] at h ⊢
      have hbounds : checkBounds data s.pos size = .ok () := checkBounds_ok.mpr (by omega)
      rw [unpackMany, hbounds]
      obtain ⟨s', hrun, hpos, hvalues⟩ := ih (s := { pushNamed s g.name
        (readGroupValue m g.code ((data.drop s.pos).take size)) count (count - (left + 1)) with
          pos := s.pos + size }) (by simp only; omega)
      refine ⟨s', hrun, ?_, ?_⟩
      · rw [hpos]
        simp only
        omega
      · rw [hvalues]
        simp only
        rw [pushNamed_values, chunks, List.map_cons, List.append_assoc, List.drop_drop]
        rfl

theorem nextArg_front (front : List Value) (v : Value) (back : List Value) (code : Char) :
    nextArg (front ++ v :: back) front.length code = .ok v := by
  rw [nextArg, List.getElem?_append_right (Nat.le_refl _), Nat.sub_self]
  rfl

theorem packMany_values {code : Char} {size : Nat} (left : Nat) {bytes : List UInt8}
    (hall : ∀ chunk ∈ chunks size left bytes,
      ∃ written, writeGroupValue m code (readGroupValue m code chunk) = .ok written ∧
        (Canonical m code chunk → written = chunk)) :
    ∃ written,
      (∀ front back out, packMany m code
          (front ++ (chunks size left bytes).map (readGroupValue m code) ++ back) left
          ⟨front.length, out⟩ =
        .ok ⟨(front ++ (chunks size left bytes).map (readGroupValue m code)).length,
          out ++ written⟩) ∧
      ((∀ chunk ∈ chunks size left bytes, Canonical m code chunk) →
        written = bytes.take (size * left)) := by
  induction left generalizing bytes with
  | zero => exact ⟨[], fun front back out => by simp [packMany, chunks], fun _ => by simp⟩
  | succ left ih =>
      obtain ⟨first, hhead, hsame⟩ := hall _ List.mem_cons_self
      obtain ⟨rest, hrun, hrest⟩ := ih fun chunk hc => hall chunk (List.mem_cons_of_mem _ hc)
      refine ⟨first ++ rest, fun front back out => ?_, fun hcanonical => ?_⟩
      · have hnext := hrun (front ++ [readGroupValue m code (bytes.take size)]) back (out ++ first)
        rw [chunks, List.map_cons, packMany, List.append_assoc, List.cons_append, nextArg_front]
        rw [List.append_assoc, List.append_assoc, List.singleton_append, List.length_append,
          List.length_singleton] at hnext
        change (writeGroupValue m code _ >>= fun bytes => _) = _
        rw [hhead]
        refine hnext.trans ?_
        rw [List.append_assoc, List.append_assoc, List.singleton_append]
      · rw [hsame (hcanonical _ List.mem_cons_self),
          hrest fun chunk hc => hcanonical chunk (List.mem_cons_of_mem _ hc), Nat.mul_succ,
          Nat.add_comm (size * left), List.take_add]

theorem Group.times_even {n : Nat} (h : n % 2 = 0) : (n + 1) / 2 * 2 = n := by omega

theorem flatten_read (code : Char) (bytes : List UInt8) :
    flattenPackArgs [readGroupValue m code bytes] = [readGroupValue m code bytes] := by
  have hint : ∀ n, flattenPackArgs [intToValue n] = [intToValue n] := by
    intro n
    unfold intToValue
    split
    · rfl
    · rfl
  unfold readGroupValue
  split
  · rfl
  split
  · rfl
  split
  · simp only
    split
    · exact hint _
    · rw [uintToValue_eq]
      exact hint _
  · rfl

/-- A group is unpacked, and what is unpacked can be packed; if the group is tame, as the bytes it
was unpacked from. -/
theorem group_round {g : Group} (hg : Fixed g) {data : List UInt8} {s : Unpacking}
    (hfits : s.pos + g.extent ≤ data.length) (hpackable : PackableGroup m g (data.drop s.pos)) :
    ∃ s' vals written, unpackGroup m data s g = .ok s' ∧ s'.pos = s.pos + g.extent ∧
      s'.result.map Prod.snd = s.result.map Prod.snd ++ vals ∧
      (∀ v ∈ vals, flattenPackArgs [v] = [v]) ∧
      (∀ front back out, packGroup m (front ++ vals ++ back) ⟨front.length, out⟩ g =
        .ok ⟨(front ++ vals).length, out ++ written⟩) ∧
      (TameGroup m g (data.drop s.pos) → written = (data.drop s.pos).take g.extent) := by
  unfold PackableGroup at hpackable
  unfold TameGroup
  unfold Group.extent at hfits ⊢
  cases hkind : kind g.code with
  | value =>
      simp only [hkind] at hfits hpackable ⊢
      obtain ⟨s', hrun, hpos, hvalues⟩ := unpackMany_values (m := m) (g := g) g.times g.times hfits
      have hlen := length_chunks (show elemSize g.code * g.times ≤ (data.drop s.pos).length by
        rw [List.length_drop]
        omega)
      obtain ⟨written, hpack, hsame⟩ := packMany_values g.times fun chunk hc =>
        writeGroupValue_read hg.valid hkind (hlen chunk hc) (hpackable chunk hc)
      refine ⟨s', _, written, ?_, hpos, hvalues, fun v hv => ?_, fun front back out => ?_, hsame⟩
      · unfold unpackGroup
        simp only [hkind]
        simp only [codeSize_valid hg.valid hkind, g.times_eq _ hg.noStar]
        exact hrun
      · obtain ⟨chunk, -, rfl⟩ := List.mem_map.mp hv
        exact flatten_read _ _
      · unfold packGroup
        simp only [hkind]
        rw [g.times_eq _ hg.noStar]
        exact hpack front back out
  | hex =>
      simp only [hkind] at hfits ⊢
      obtain ⟨digits, hdigits, hwritten⟩ :=
        writeHex_readHex g.code ((data.drop s.pos).take ((g.times + 1) / 2)) g.times
      have hlen : ((data.drop s.pos).take ((g.times + 1) / 2)).length = (g.times + 1) / 2 := by
        rw [List.length_take, List.length_drop]
        omega
      generalize hread : readHex ((data.drop s.pos).take ((g.times + 1) / 2)) g.times g.code = text
        at hdigits
      refine ⟨{ pushNamed s g.name (.string text) 1 0 with pos := s.pos + (g.times + 1) / 2 },
        [.string text], writeHex digits g.times g.code, ?_, rfl, pushNamed_values _ _ _ _ _,
        fun v hv => ?_, fun front back out => ?_, fun heven => hwritten ?_⟩
      · unfold unpackGroup
        simp only [hkind]
        rw [g.times_eq _ hg.noStar, checkBounds_ok.mpr hfits]
        simp only [hread]
        rfl
      · rw [List.mem_singleton.mp hv]
        rfl
      · unfold packGroup
        simp only [hkind]
        rw [List.append_assoc, List.singleton_append, nextArg_front]
        refine bind_eq_ok.mpr ⟨_, rfl, bind_eq_ok.mpr ⟨digits, hdigits, ?_⟩⟩
        rw [g.times_eq _ hg.noStar, List.length_append, List.length_singleton]
        rfl
      · rw [hlen, Nat.mul_comm, Group.times_even heven]
  | text | pad | back | seek => simp only [hkind] at hpackable

def extents (groups : List Group) : Nat := (groups.map Group.extent).sum

/-- A record is unpacked, and what is unpacked can be packed; if its groups are tame, as the
record. -/
theorem run_round {groups : List Group} (hg : ∀ g ∈ groups, Fixed g) {data : List UInt8}
    {s : Unpacking} (hfits : s.pos + extents groups ≤ data.length)
    (hpackable : Each (PackableGroup m) groups (data.drop s.pos)) :
    ∃ s' vals written, groups.foldlM (unpackGroup m data) s = .ok s' ∧
      s'.pos = s.pos + extents groups ∧
      s'.result.map Prod.snd = s.result.map Prod.snd ++ vals ∧
      (∀ v ∈ vals, flattenPackArgs [v] = [v]) ∧
      (∀ front back out, groups.foldlM (packGroup m (front ++ vals ++ back)) ⟨front.length, out⟩ =
        .ok ⟨(front ++ vals).length, out ++ written⟩) ∧
      (Each (TameGroup m) groups (data.drop s.pos) →
        written = (data.drop s.pos).take (extents groups)) := by
  induction groups generalizing s with
  | nil =>
      refine ⟨s, [], [], rfl, rfl, (List.append_nil _).symm, fun _ hv => absurd hv List.not_mem_nil,
        fun front back out => ?_, fun _ => rfl⟩
      rw [List.append_nil, List.append_nil]
      rfl
  | cons g groups ih =>
      have hextents : extents (g :: groups) = g.extent + extents groups := by
        rw [extents, List.map_cons, List.sum_cons]
        rfl
      rw [hextents] at hfits ⊢
      obtain ⟨t, vals, first, hunpack, hpos, hvalues, hplain, hpack, hfirst⟩ :=
        group_round (hg g List.mem_cons_self) (by omega) hpackable.1
      have hrest := hpackable.2
      rw [List.drop_drop, ← hpos] at hrest
      obtain ⟨s', more, rest, hrun, hend, hall, hmore, hpacks, hlast⟩ :=
        ih (fun g hg' => hg g (List.mem_cons_of_mem _ hg')) (by omega) hrest
      refine ⟨s', vals ++ more, first ++ rest, ?_, by omega, ?_, fun v hv => ?_,
        fun front back out => ?_, fun htame => ?_⟩
      · rw [List.foldlM_cons, hunpack]
        exact hrun
      · rw [hall, hvalues, List.append_assoc]
      · exact (List.mem_append.mp hv).elim (hplain v) (hmore v)
      · have hone := hpack front (more ++ back) out
        have hnext := hpacks (front ++ vals) back (out ++ first)
        rw [List.foldlM_cons]
        rw [show front ++ (vals ++ more) ++ back = front ++ vals ++ (more ++ back) by simp, hone]
        rw [show front ++ vals ++ more ++ back = front ++ vals ++ (more ++ back) by simp] at hnext
        refine hnext.trans ?_
        rw [List.append_assoc, List.append_assoc out]
      · have htail := htame.2
        rw [List.drop_drop, ← hpos] at htail
        rw [hfirst htame.1, hlast htail, hpos, ← List.drop_drop, ← List.take_add]

/-- A format that has a size repeats nothing as often as it can. -/
theorem fixed_of_size {groups : List Group} (hvalid : ∀ g ∈ groups, isValidCode g.code = true)
    {bytes : List UInt8} (hpackable : Each (PackableGroup m) groups bytes) {start size : Nat}
    (h : groups.foldlM sizeGroup start = .ok size) : ∀ g ∈ groups, Fixed g := by
  induction groups generalizing start bytes with
  | nil => exact fun _ hg => absurd hg List.not_mem_nil
  | cons g groups ih =>
      rw [List.foldlM_cons] at h
      obtain ⟨next, hnext, h⟩ := bind_eq_ok.mp h
      have hrest := ih (fun g hg => hvalid g (List.mem_cons_of_mem _ hg)) hpackable.2 h
      refine List.forall_mem_cons.mpr ⟨⟨hvalid g List.mem_cons_self, fun hstar => ?_⟩, hrest⟩
      have hgroup := hpackable.1
      unfold PackableGroup at hgroup
      unfold sizeGroup at hnext
      rw [hstar] at hnext
      cases hkind : kind g.code with
      | value =>
          simp only [hkind] at hnext
          obtain ⟨elem, -, hnext⟩ := bind_eq_ok.mp hnext
          cases hnext
      | hex =>
          simp only [hkind] at hnext
          cases hnext
      | text | pad | back | seek => simp only [hkind] at hgroup

theorem countedSize_packable {groups : List Group} {bytes : List UInt8}
    (hpackable : Each (PackableGroup m) groups bytes) {size : Nat} (hsize : size < 2 ^ 64) :
    groups.foldl countAfter size = usize (size + extents groups) := by
  induction groups generalizing bytes size with
  | nil => exact (Nat.mod_eq_of_lt hsize).symm
  | cons g groups ih =>
      have hextents : extents (g :: groups) = g.extent + extents groups := by
        rw [extents, List.map_cons, List.sum_cons]
        rfl
      have hstep : countAfter size g = usize (size + g.extent) := by
        have hgroup := hpackable.1
        unfold PackableGroup at hgroup
        unfold countAfter
        cases hkind : kind g.code with
        | value | hex => rfl
        | text | pad | back | seek => simp only [hkind] at hgroup
      have hnext : usize (size + g.extent) < 2 ^ 64 := Nat.mod_lt _ (Nat.two_pow_pos 64)
      rw [List.foldl_cons, hstep, ih hpackable.2 hnext, hextents, usize, usize, usize, Nat.mod_add_mod,
        Nat.add_assoc]

theorem setKeys_nodup {entries pairs : Pairs} (h : ((entries ++ pairs).map Prod.fst).Nodup) :
    pairs.foldl setKey entries = entries ++ pairs := by
  induction pairs generalizing entries with
  | nil => exact (List.append_nil _).symm
  | cons pair pairs ih =>
      have hnew : (entries.any fun e => e.1 = pair.1) = false := by
        rw [List.any_eq_false]
        intro e he heq
        rw [List.map_append] at h
        exact (List.nodup_append.mp h).2.2 _ (List.mem_map_of_mem he) _
          (List.mem_map_of_mem List.mem_cons_self) (of_decide_eq_true heq)
      have hset : setKey entries pair = entries ++ [pair] := by
        rw [setKey, hnew, if_neg Bool.false_ne_true]
      rw [List.append_cons] at h ⊢
      rw [List.foldl_cons, hset, ih h]

theorem allocDict_nodup {pairs : Pairs} (h : (pairs.map Prod.fst).Nodup) :
    allocDict pairs = pairs := setKeys_nodup h

section Keys

/-- How many fields a group has, with so many bytes left. -/
def Group.fields (g : Group) (left : Nat) : Nat :=
  match kind g.code with
  | .text | .hex => 1
  | .pad | .back | .seek => 0
  | .value => g.repeat.times (left / elemSize g.code)

/-- Where the bytes of what follows a group start. -/
def Group.after (g : Group) (length pos : Nat) : Nat :=
  match kind g.code with
  | .text => pos + g.repeat.times (length - pos)
  | .hex => pos + (g.repeat.times ((length - pos) * 2) + 1) / 2
  | .pad => pos + g.times
  | .back => pos - g.times
  | .seek => g.target
  | .value => pos + elemSize g.code * g.repeat.times ((length - pos) / elemSize g.code)

/-- The keys of one of some fields of a name. -/
def nameKey (name : String) (count k : Nat) : String := if 1 < count then s!"{name}{k + 1}" else name

/-- The keys that a group's name gives, and how many numbers stand for fields without a name. -/
def Group.keys (g : Group) (left : Nat) : List String × Nat :=
  match g.name with
  | some name => ((List.range (g.fields left)).map (nameKey name (g.fields left)), 0)
  | none => ([], g.fields left)

def keysFrom (length : Nat) : Nat → List Group → List String × Nat
  | _, [] => ([], 0)
  | pos, g :: groups =>
      let here := g.keys (length - pos)
      let later := keysFrom length (g.after length pos) groups
      (here.1 ++ later.1, here.2 + later.2)

/-- The fields so far have these keys, and those without names have numbers from one on. -/
structure Keyed (s : Unpacking) (names : List String) (numbers : Nat) : Prop where
  perm : (s.result.map Prod.fst).Perm (names ++ (List.range numbers).map fun k => toString (k + 1))
  unnamed : s.unnamed = numbers + 1

variable {s s' : Unpacking} {names : List String} {numbers : Nat}

theorem Keyed.pushName (h : Keyed s names numbers) (name : String) (val : Value) (count k : Nat) :
    Keyed (pushNamed s (some name) val count k) (names ++ [nameKey name count k]) numbers := by
  refine ⟨?_, h.unnamed⟩
  simp only [pushNamed, List.map_append]
  rw [List.append_assoc]
  refine (h.perm.append_right _).trans ?_
  rw [List.append_assoc]
  exact List.Perm.append_left _ List.perm_append_comm

theorem Keyed.pushNumber (h : Keyed s names numbers) (val : Value) (count k : Nat) :
    Keyed (pushNamed s none val count k) names (numbers + 1) := by
  refine ⟨?_, congrArg (· + 1) h.unnamed⟩
  simp only [pushNamed, List.map_append, h.unnamed, List.range_succ]
  rw [← List.append_assoc]
  exact h.perm.append_right _

theorem Keyed.moved (h : Keyed s names numbers) (pos : Nat) :
    Keyed { s with pos := pos } names numbers := ⟨h.perm, h.unnamed⟩

theorem keyed_many {g : Group} {data : List UInt8} {size count : Nat} (left : Nat)
    (hleft : left ≤ count) (hs : Keyed s names numbers)
    (h : unpackMany m g data size count left s = .ok s') :
    s'.pos = s.pos + size * left ∧
      match g.name with
      | some name =>
          Keyed s' (names ++ (List.range' (count - left) left).map (nameKey name count)) numbers
      | none => Keyed s' names (numbers + left) := by
  induction left generalizing s names numbers with
  | zero =>
      obtain rfl := Except.ok.inj h
      cases g.name with
      | none => exact ⟨rfl, hs⟩
      | some name => exact ⟨rfl, by simpa using hs⟩
  | succ left ih =>
      rw [unpackMany] at h
      obtain ⟨⟨⟩, -, h⟩ := bind_eq_ok.mp h
      cases hname : g.name with
      | none =>
          rw [hname] at h
          obtain ⟨hpos, hkeyed⟩ := ih (Nat.le_of_succ_le hleft) ((hs.pushNumber _ _ _).moved _) h
          simp only [hname] at hkeyed
          refine ⟨?_, by rwa [Nat.add_right_comm, Nat.add_assoc] at hkeyed⟩
          simp only at hpos
          rw [hpos, Nat.mul_succ]
          omega
      | some name =>
          rw [hname] at h
          obtain ⟨hpos, hkeyed⟩ := ih (Nat.le_of_succ_le hleft) ((hs.pushName name _ _ _).moved _) h
          simp only [hname] at hkeyed
          refine ⟨?_, ?_⟩
          · simp only at hpos
            rw [hpos, Nat.mul_succ]
            omega
          · rw [List.append_assoc, List.singleton_append] at hkeyed
            simp only [List.range'_succ, List.map_cons]
            rw [show count - (left + 1) + 1 = count - left by omega]
            exact hkeyed

theorem keyed_one {g : Group} {left : Nat} (hone : g.fields left = 1) (hs : Keyed s names numbers)
    (val : Value) : Keyed (pushNamed s g.name val 1 0) (names ++ (g.keys left).1)
      (numbers + (g.keys left).2) := by
  unfold Group.keys
  rw [hone]
  cases g.name with
  | none =>
      rw [List.append_nil]
      exact hs.pushNumber val 1 0
  | some name => exact hs.pushName name val 1 0

theorem keyed_none {g : Group} {left : Nat} (hnone : g.fields left = 0)
    (hs : Keyed s names numbers) (pos : Nat) :
    Keyed { s with pos := pos } (names ++ (g.keys left).1) (numbers + (g.keys left).2) := by
  unfold Group.keys
  rw [hnone, List.range_zero]
  cases g.name with
  | none | some _ =>
      simp only [List.map_nil, List.append_nil]
      exact hs.moved pos

theorem repeatCountOf_times {r : Repeat} {n : Nat} (h : repeatCountOf r = .ok n) : r.times 0 = n := by
  cases r with
  | one | count _ =>
      obtain rfl := Except.ok.inj h
      rfl
  | star => cases h

/-- A group adds its keys, and leaves the position after it. -/
theorem keyed_group {g : Group} (hvalid : isValidCode g.code = true) {data : List UInt8}
    (hs : Keyed s names numbers) (h : unpackGroup m data s g = .ok s') :
    s'.pos = g.after data.length s.pos ∧
      Keyed s' (names ++ (g.keys (data.length - s.pos)).1)
        (numbers + (g.keys (data.length - s.pos)).2) := by
  unfold unpackGroup at h
  unfold Group.after
  cases hkind : kind g.code with
  | text | hex =>
      simp only [hkind] at h ⊢
      obtain ⟨⟨⟩, -, h⟩ := bind_eq_ok.mp h
      obtain rfl := Except.ok.inj h
      have hone : g.fields (data.length - s.pos) = 1 := by simp only [Group.fields, hkind]
      exact ⟨rfl, (keyed_one hone hs _).moved _⟩
  | pad =>
      simp only [hkind] at h ⊢
      obtain ⟨n, hn, h⟩ := bind_eq_ok.mp h
      obtain ⟨⟨⟩, -, h⟩ := bind_eq_ok.mp h
      obtain rfl := Except.ok.inj h
      rw [Group.times, repeatCountOf_times hn]
      exact ⟨rfl, keyed_none (by simp only [Group.fields, hkind]) hs _⟩
  | back =>
      simp only [hkind] at h ⊢
      obtain ⟨n, hn, h⟩ := bind_eq_ok.mp h
      obtain rfl := Except.ok.inj h
      rw [Group.times, repeatCountOf_times hn]
      exact ⟨rfl, keyed_none (by simp only [Group.fields, hkind]) hs _⟩
  | seek =>
      simp only [hkind] at h ⊢
      obtain ⟨target, htarget, h⟩ := bind_eq_ok.mp h
      split at h
      · cases h
      · obtain rfl := Except.ok.inj h
        refine ⟨?_, keyed_none (by simp only [Group.fields, hkind]) hs _⟩
        unfold Group.target
        cases hrepeat : g.repeat with
        | one | count n =>
            rw [hrepeat] at htarget
            exact (Except.ok.inj htarget).symm
        | star =>
            rw [hrepeat] at htarget
            cases htarget
  | value =>
      simp only [hkind, codeSize_valid hvalid hkind] at h ⊢
      obtain ⟨size, hsize, h⟩ := bind_eq_ok.mp h
      obtain rfl := Except.ok.inj hsize
      have hfields : g.fields (data.length - s.pos) =
          g.repeat.times ((data.length - s.pos) / elemSize g.code) := by
        simp only [Group.fields, hkind]
      obtain ⟨hpos, hkeyed⟩ := keyed_many _ (Nat.le_refl _) hs h
      refine ⟨hpos, ?_⟩
      unfold Group.keys
      rw [hfields]
      cases hname : g.name with
      | none =>
          rw [hname] at hkeyed
          rwa [List.append_nil]
      | some name =>
          rw [hname] at hkeyed
          rw [List.range_eq_range']
          simpa only [Nat.sub_self, Nat.add_zero] using hkeyed

theorem keyed_run {groups : List Group} (hvalid : ∀ g ∈ groups, isValidCode g.code = true)
    {data : List UInt8} (hs : Keyed s names numbers)
    (h : groups.foldlM (unpackGroup m data) s = .ok s') :
    Keyed s' (names ++ (keysFrom data.length s.pos groups).1)
      (numbers + (keysFrom data.length s.pos groups).2) := by
  induction groups generalizing s names numbers with
  | nil =>
      obtain rfl := Except.ok.inj h
      rw [keysFrom, List.append_nil]
      exact hs
  | cons g groups ih =>
      rw [List.foldlM_cons] at h
      obtain ⟨t, ht, h⟩ := bind_eq_ok.mp h
      obtain ⟨hpos, hkeyed⟩ := keyed_group (hvalid g List.mem_cons_self) hs ht
      have hrest := ih (fun g hg => hvalid g (List.mem_cons_of_mem _ hg)) hkeyed h
      rw [hpos] at hrest
      rw [keysFrom, ← List.append_assoc, ← Nat.add_assoc]
      exact hrest

theorem toString_inj {m n : Nat} (h : toString m = toString n) : m = n := by
  have hdigits : Nat.toDigits 10 m = Nat.toDigits 10 n := by
    rw [← Nat.toList_repr, ← Nat.toList_repr]
    exact congrArg String.toList h
  rw [← Nat.ofDigitChars_ten_toDigits (n := m), hdigits, Nat.ofDigitChars_ten_toDigits]

/-- The keys differ where those of names do, and none of them is the number of another field. -/
theorem Keyed.nodup_iff (h : Keyed s names numbers) : (s.result.map Prod.fst).Nodup ↔
    names.Nodup ∧ ∀ k < numbers, toString (k + 1) ∉ names := by
  have hnumbers : ((List.range numbers).map fun k => toString (k + 1)).Nodup :=
    List.Nodup.map (fun i j heq => Nat.succ.inj (toString_inj heq)) List.nodup_range
  rw [h.perm.nodup_iff, List.nodup_append]
  refine and_congr_right fun _ => ⟨fun hapart k hk hmem => ?_, fun hapart => ⟨hnumbers, ?_⟩⟩
  · exact hapart.2 _ hmem _ (List.mem_map_of_mem (List.mem_range.mpr hk)) rfl
  · rintro name hname number hnumber rfl
    obtain ⟨k, hk, rfl⟩ := List.mem_map.mp hnumber
    exact hapart k (List.mem_range.mp hk) hname

end Keys

theorem parseFormat_int {code : Char} {spec : Nat × Endian × Bool}
    (h : codeIntSpec code = some spec) :
    parseFormat [code] = .ok [⟨code, .one, none⟩] ∧ kind code = .value := by
  unfold codeIntSpec at h
  split at h
  all_goals
    first
    | exact ⟨rfl, rfl⟩
    | cases h

theorem pack_int {code : Char} {spec : Nat × Endian × Bool} (h : codeIntSpec code = some spec)
    {v : Value} (hv : flattenPackArgs [v] = [v]) :
    pack m [code] [v] = writeGroupValue m code v := by
  obtain ⟨hparse, hkind⟩ := parseFormat_int h
  rw [pack_eq hparse, hv, packValues, List.foldlM_cons, packGroup]
  simp only [hkind, Repeat.times, packMany]
  have hnext : nextArg [v] 0 code = .ok v := rfl
  rw [hnext]
  cases hwrite : writeGroupValue m code v with
  | error e =>
      change Except.map Packing.out (writeGroupValue m code v >>= _ >>= _) = _
      rw [hwrite]
      rfl
  | ok bytes =>
      change Except.map Packing.out (writeGroupValue m code v >>= _ >>= _) = _
      rw [hwrite]
      rfl

theorem unpack_int {code : Char} {size : Nat} {endian : Endian} {signed : Bool}
    (h : codeIntSpec code = some (size, endian, signed)) {bytes : List UInt8}
    (hlen : bytes.length = size) :
    unpack m [code] bytes 0 = .ok [("1", readGroupValue m code bytes)] := by
  obtain ⟨hparse, hkind⟩ := parseFormat_int h
  have hsize : codeSize code = .ok size := by rw [codeSize, h]
  have hbounds : checkBounds bytes 0 size = .ok () := checkBounds_ok.mpr (by omega)
  have hmany : unpackMany m ⟨code, .one, none⟩ bytes size 1 1 { pos := 0 } =
      .ok { pos := 0 + size, unnamed := 2, result := [("1", readGroupValue m code bytes)] } := by
    rw [unpackMany, hbounds, List.drop_zero, List.take_of_length_le (Nat.le_of_eq hlen)]
    rfl
  have hgroup : unpackGroup m bytes { pos := 0 } ⟨code, .one, none⟩ =
      .ok { pos := 0 + size, unnamed := 2, result := [("1", readGroupValue m code bytes)] } := by
    unfold unpackGroup
    simp only [hkind, hsize]
    exact hmany
  rw [unpack, if_neg (Nat.not_lt_zero _), hparse]
  refine bind_eq_ok.mpr ⟨_, rfl,
    bind_eq_ok.mpr ⟨([("1", readGroupValue m code bytes)], 0 + size), ?_, rfl⟩⟩
  rw [unpackValues, List.foldlM_cons, hgroup]
  rfl

theorem intToValue_wide {n : Int} (hn : ¬(-2 ^ 127 ≤ n ∧ n < 2 ^ 127)) :
    intToValue n = .bigint n := by
  unfold intToValue
  rw [if_neg]
  unfold F64_SAFE_INT
  omega

theorem flatten_int (n : Int) : flattenPackArgs [intToValue n] = [intToValue n] := by
  unfold intToValue
  split
  · rfl
  · rfl

/-- What is unpacked of a record can be packed again, as the record where its format forgets no part
of it; an integer is packed as its low bytes and unpacked as what they hold, which is the integer
if it fits; and it is said which formats give two fields one key. -/
theorem struct_values (m : Machine) :
    (∀ format groups (data : List UInt8), parseFormat format = .ok groups →
      calcsize format = .ok data.length → extents groups < 2 ^ 64 →
      Each (PackableGroup m) groups data →
      ∃ pairs, unpackValues m groups data 0 = .ok (pairs, data.length) ∧
        ((pairs.map Prod.fst).Nodup → unpack m format data 0 = .ok pairs ∧
          ∃ bytes, pack m format (pairs.map Prod.snd) = .ok bytes ∧
            (Each (TameGroup m) groups data → bytes = data))) ∧
    (∀ code size endian signed, codeIntSpec code = some (size, endian, signed) → code ≠ '?' →
      ∀ n : Int,
        (-2 ^ 127 ≤ n ∧ n < 2 ^ 127 → ∃ bytes, pack m [code] [intToValue n] = .ok bytes ∧
          unpack m [code] bytes 0 = .ok [("1", intToValue (wrapped size signed n))] ∧
          (Fits size signed n → unpack m [code] bytes 0 = .ok [("1", intToValue n)])) ∧
        (¬(-2 ^ 127 ≤ n ∧ n < 2 ^ 127) → ∃ e, pack m [code] [intToValue n] = .error e)) ∧
    ∀ format groups data start pairs stop, parseFormat format = .ok groups →
      unpackValues m groups data start = .ok (pairs, stop) →
      ((pairs.map Prod.fst).Nodup ↔ (keysFrom data.length start groups).1.Nodup ∧
        ∀ k < (keysFrom data.length start groups).2,
          toString (k + 1) ∉ (keysFrom data.length start groups).1) := by
  refine ⟨?_, ?_, ?_⟩
  · intro format groups data hparse hsize hlt hpackable
    rw [calcsize, hparse] at hsize
    have hg := fixed_of_size (parseFormat_valid hparse) hpackable hsize
    have hextents : extents groups = data.length := by
      have htotal := (foldlM_size hg 0).symm.trans hsize
      rw [countedSize_packable hpackable (Nat.two_pow_pos 64), Nat.zero_add, usize,
        Nat.mod_eq_of_lt hlt] at htotal
      exact Except.ok.inj htotal
    obtain ⟨s, vals, written, hrun, hpos, hvalues, hplain, hpacks, hsame⟩ :=
      run_round (m := m) hg (s := { pos := 0 }) (by rw [Nat.zero_add, hextents]) hpackable
    have hunpacked : unpackValues m groups data 0 = .ok (s.result, data.length) := by
      rw [unpackValues, hrun, ← hextents, ← Nat.zero_add (extents groups), ← hpos]
      rfl
    refine ⟨s.result, hunpacked, fun hkeys => ⟨?_, written, ?_, fun htame => ?_⟩⟩
    · rw [unpack, if_neg (Nat.not_lt_zero _), hparse]
      refine bind_eq_ok.mpr ⟨_, rfl, bind_eq_ok.mpr ⟨_, hunpacked, ?_⟩⟩
      rw [allocDict_nodup hkeys]
      rfl
    · have hpacked := hpacks [] [] []
      rw [List.nil_append, List.append_nil, List.nil_append] at hpacked
      have hall : s.result.map Prod.snd = vals := hvalues
      rw [pack_eq hparse, hall, flattenPackArgs_self hplain, packValues_ok]
      exact ⟨_, hpacked, rfl⟩
    · rw [hsame htame, hextents, List.drop_zero, List.take_length]
  · intro code size endian signed hint hbool n
    refine ⟨fun hn => ?_, fun hn => ?_⟩
    · obtain ⟨bytes, hwrite, hlen, hread⟩ := readGroupValue_write hint hbool
        (valueToI128_intToValue (m := m) hn.1 hn.2)
      refine ⟨bytes, ?_, ?_, fun hfits => ?_⟩
      · rw [pack_int hint (flatten_int n), hwrite]
      · rw [unpack_int hint hlen, hread]
      · rw [unpack_int hint hlen, hread, wrapped_fits (codeIntSpec_size hint).1 hfits]
    · rw [pack_int hint (flatten_int n), intToValue_wide hn]
      exact writeGroupValue_refused hint hbool hn
  · intro format groups data start pairs stop hparse hunpacked
    rw [unpackValues] at hunpacked
    cases hrun : groups.foldlM (unpackGroup m data) { pos := start } with
    | error e =>
        rw [hrun] at hunpacked
        cases hunpacked
    | ok s =>
        rw [hrun] at hunpacked
        cases hunpacked
        have hstart : Keyed { pos := start } [] 0 := ⟨List.Perm.nil, rfl⟩
        have hkeyed := keyed_run (parseFormat_valid hparse) hstart hrun
        rw [List.nil_append, Nat.zero_add] at hkeyed
        exact hkeyed.nodup_iff

def bytesAndHex : List Group := [⟨'C', .count 2, none⟩, ⟨'H', .count 4, none⟩]

theorem tame_bytesAndHex (data : List UInt8) :
    Each (PackableGroup littleMachine) bytesAndHex data ∧
      Each (TameGroup littleMachine) bytesAndHex data :=
  ⟨⟨fun _ _ h => absurd h (by decide), trivial, trivial⟩,
    fun _ _ => ⟨fun h => absurd h (by decide), fun _ _ h => (nomatch h)⟩, rfl, trivial⟩

theorem struct_values_some :
    (∃ pairs, unpack littleMachine "C2H4".toList [1, 2, 171, 205] 0 = .ok pairs ∧
      pack littleMachine "C2H4".toList (pairs.map Prod.snd) = .ok [1, 2, 171, 205]) ∧
    (∃ bytes, pack littleMachine ['c'] [intToValue (-5)] = .ok bytes ∧
      unpack littleMachine ['c'] bytes 0 = .ok [("1", intToValue (-5))]) ∧
    ∃ e, pack littleMachine ['U'] [intToValue (2 ^ 127)] = .error e := by
  obtain ⟨hround, hints, hkeys⟩ := struct_values littleMachine
  have hparse : parseFormat "C2H4".toList = .ok bytesAndHex := rfl
  refine ⟨?_, ?_, (hints 'U' _ _ _ rfl (by decide) (2 ^ 127)).2 (by decide)⟩
  · obtain ⟨hpackable, htame⟩ := tame_bytesAndHex [1, 2, 171, 205]
    obtain ⟨pairs, hunpacked, hback⟩ := hround _ _ [1, 2, 171, 205] hparse rfl
      (by decide) hpackable
    have hapart := (hkeys _ _ _ _ _ _ hparse hunpacked).mpr
      ⟨List.nodup_nil, fun _ _ => List.not_mem_nil⟩
    obtain ⟨hpairs, bytes, hpacked, hsame⟩ := hback hapart
    exact ⟨pairs, hpairs, by rw [hpacked, hsame htame]⟩
  · obtain ⟨bytes, hpack, -, hfits⟩ := (hints 'c' _ _ _ rfl (by decide) (-5)).1
      (by decide)
    exact ⟨bytes, hpack, hfits (by unfold Fits; decide)⟩

/-- A bool is any byte but zero, and an integer that does not fit is cut off. -/
theorem struct_values_fail :
    (unpack littleMachine ['?'] [2] 0 = .ok [("1", .bool true)] ∧
      pack littleMachine ['?'] [.bool true] ≠ .ok [2]) ∧
    ∃ bytes, pack littleMachine ['c'] [.bigint 200] = .ok bytes ∧
      unpack littleMachine ['c'] bytes 0 = .ok [("1", intToValue (-56))] :=
  ⟨⟨rfl, fun h => absurd (Except.ok.inj h) (by decide)⟩, [200], rfl, rfl⟩

end Zuri.Struct
