import Mathlib.Algebra.Order.Ring.Nat
import Mathlib.Data.List.Basic

/-!
The storage of a list value. Its elements are in two slots of its own until there are more, and
then in a buffer, of which only the first `len` slots have been given a value. Lengths and
capacities are kept in 32 bits. What an operation does with memory that is not there, or reads
past the elements, is undefined.
-/

namespace Zuri.Vm

/-- How an operation fails: the program stops, or it does what has no meaning. -/
inductive Fault where
  | panic
  | undefined
  deriving DecidableEq

def inlineCap : Nat := 2

/-- `ptr` is none when the elements are in `inline`. A slot is none until it is written. -/
structure ListStorage (V : Type) where
  ptr : Option (List (Option V))
  len : Nat
  cap : Nat
  inline : List (Option V)

namespace ListStorage

variable {V : Type}

def new (nil : V) : ListStorage V := ⟨none, 0, 0, List.replicate inlineCap (some nil)⟩

section Memory

variable (s : ListStorage V)

/-- The slots of this list, from where its elements start. -/
def data : List (Option V) := s.ptr.getD s.inline

def withData (slots : List (Option V)) : ListStorage V :=
  match s.ptr with
  | none => { s with inline := slots }
  | some _ => { s with ptr := some slots }

def effectiveCap : Nat :=
  match s.ptr with
  | none => inlineCap
  | some _ => s.cap

def read (i : Nat) : Except Fault V :=
  match s.data[i]? with
  | some (some v) => if i < s.len then .ok v else .error .undefined
  | _ => .error .undefined

def write (i : Nat) (v : V) : Except Fault (ListStorage V) :=
  if i < s.data.length then .ok (s.withData (s.data.set i (some v))) else .error .undefined

/-- `ptr::copy` of `n` elements of the list. -/
def copy (source target n : Nat) : Except Fault (ListStorage V) :=
  if source + n ≤ s.len ∧ source + n ≤ s.data.length ∧ target + n ≤ s.data.length then
    .ok (s.withData (s.data.take target ++ ((s.data.drop source).take n ++
      s.data.drop (target + n))))
  else .error .undefined

/-- `ptr::copy_nonoverlapping` of elements that are elsewhere. -/
def copyFrom (target : Nat) (vs : List V) : Except Fault (ListStorage V) :=
  if target + vs.length ≤ s.data.length then
    .ok (s.withData (s.data.take target ++ (vs.map some ++ s.data.drop (target + vs.length))))
  else .error .undefined

/-- Writes one element after the other. -/
def fill (s : ListStorage V) (i : Nat) : List V → Except Fault (ListStorage V)
  | [] => .ok s
  | v :: vs => do
      let s ← s.write i v
      s.fill (i + 1) vs

/-- A buffer is reallocated with the size it was allocated with, and given up with it. -/
def growTo (newCap : Nat) : Except Fault (ListStorage V) :=
  if 2 ^ 63 ≤ newCap * 8 then .error .panic
  else
    match s.ptr with
    | none =>
        if s.len ≤ s.inline.length ∧ s.len ≤ newCap then
          .ok { s with
            ptr := some (s.inline.take s.len ++ List.replicate (newCap - s.len) none)
            cap := newCap % 2 ^ 32 }
        else .error .undefined
    | some slots =>
        if slots.length = s.cap then
          .ok { s with
            ptr := some (slots.take newCap ++ List.replicate (newCap - slots.length) none)
            cap := newCap % 2 ^ 32 }
        else .error .undefined

def drop : Except Fault Unit :=
  match s.ptr with
  | none => .ok ()
  | some slots => if slots.length = s.cap then .ok () else .error .undefined

/-- The capacity a full list grows to for one more. -/
def pushCap : Nat :=
  match s.ptr with
  | none => inlineCap * 2
  | some _ => s.cap * 2

def growForPush : Except Fault (ListStorage V) := s.growTo s.pushCap

/-- The capacity a list grows to for more than it has room for. -/
def reserveCap (additional : Nat) : Nat :=
  max (max (s.len + additional) (min (s.effectiveCap * 2) (2 ^ 64 - 1))) (inlineCap * 2)

def reserve (additional : Nat) : Except Fault (ListStorage V) :=
  if 2 ^ 64 ≤ s.len + additional then .error .panic
  else if s.effectiveCap < s.len + additional then s.growTo (s.reserveCap additional)
  else .ok s

/-- Room for one more. -/
def makeRoom : Except Fault (ListStorage V) :=
  if s.len = s.effectiveCap then s.growForPush else .ok s

def push (v : V) : Except Fault (ListStorage V) := do
  let s ← s.makeRoom
  let n := s.len
  let s ← s.write n v
  .ok { s with len := (n + 1) % 2 ^ 32 }

def pop : Except Fault (ListStorage V × List V) :=
  if s.len = 0 then .ok (s, [])
  else do
    let v ← s.read (s.len - 1)
    .ok ({ s with len := s.len - 1 }, [v])

def insert (index : Nat) (v : V) : Except Fault (ListStorage V) :=
  if s.len < index then .error .panic
  else do
    let s ← s.makeRoom
    let n := s.len
    let s ← s.copy index (index + 1) (n - index)
    let s ← s.write index v
    .ok { s with len := (n + 1) % 2 ^ 32 }

def remove (index : Nat) : Except Fault (ListStorage V × List V) :=
  if s.len ≤ index then .error .panic
  else do
    let v ← s.read index
    let n := s.len
    let s ← s.copy (index + 1) index (n - index - 1)
    .ok ({ s with len := n - 1 }, [v])

def clear : ListStorage V := { s with len := 0 }

def truncate (n : Nat) : ListStorage V := if n < s.len then { s with len := n } else s

/-- A store through the slice of the elements. -/
def set (i : Nat) (v : V) : Except Fault (ListStorage V) :=
  if i < s.len then s.write i v else .error .panic

def extendFromSlice (other : List V) : Except Fault (ListStorage V) := do
  let s ← s.reserve other.length
  let n := s.len
  let s ← s.copyFrom n other
  .ok { s with len := (n + other.length % 2 ^ 32) % 2 ^ 32 }

/-- Extending by an iterator that knows how many it gives. -/
def extend (other : List V) : Except Fault (ListStorage V) := do
  let s ← s.reserve other.length
  other.foldlM push s

/-- The elements from one index to before another, in a vector of their own. -/
def toVec (start stop : Nat) : Except Fault (List V) :=
  (List.range' start (stop - start)).mapM s.read

def drain (start stop : Nat) : Except Fault (ListStorage V × List V) :=
  if start ≤ stop ∧ stop ≤ s.len then do
    let removed ← s.toVec start stop
    let n := s.len
    let s ← s.copy stop start (n - stop)
    .ok ({ s with len := n - (stop - start) % 2 ^ 32 }, removed)
  else .error .panic

end Memory

def withCapacity (nil : V) (cap : Nat) : Except Fault (ListStorage V) :=
  if inlineCap < cap then (new nil).growTo cap else .ok (new nil)

def fromElem (nil elem : V) (count : Nat) : Except Fault (ListStorage V) := do
  let s ← withCapacity nil count
  let s ← s.fill 0 (List.replicate count elem)
  .ok { s with len := count % 2 ^ 32 }

def repeatSlice (nil : V) (slice : List V) (count : Nat) : Except Fault (ListStorage V) := do
  let totalLen := min (slice.length * count) (2 ^ 64 - 1)
  let s ← withCapacity nil totalLen
  match slice with
  | [elem] => do
      s.drop
      fromElem nil elem count
  | _ => do
      let s ← s.fill 0 (List.replicate count slice).flatten
      .ok { s with len := totalLen % 2 ^ 32 }

end ListStorage

/-- What a program does with a list. The elements of the list itself are copied to a vector
before it is extended by them or they are repeated. -/
inductive ListOp (V : Type) where
  | push (v : V)
  | pop
  | insert (index : Nat) (v : V)
  | remove (index : Nat)
  | drain (start stop : Nat)
  | truncate (n : Nat)
  | extend (other : List V)
  | extendFromSlice (other : List V)
  | extendSelf
  | repeatSlice (slice : List V) (count : Nat)
  | repeatSelf (count : Nat)
  | clear
  | set (i : Nat) (v : V)

namespace ListOp

variable {V : Type}

/-- The list after an operation and the elements it hands back. -/
def run (nil : V) (s : ListStorage V) : ListOp V → Except Fault (ListStorage V × List V)
  | push v => (·, []) <$> s.push v
  | pop => s.pop
  | insert index v => (·, []) <$> s.insert index v
  | remove index => s.remove index
  | drain start stop => s.drain start stop
  | truncate n => .ok (s.truncate n, [])
  | extend other => (·, []) <$> s.extend other
  | extendFromSlice other => (·, []) <$> s.extendFromSlice other
  | extendSelf => do
      let other ← s.toVec 0 s.len
      (·, []) <$> s.extend other
  | .repeatSlice slice count => do
      let made ← ListStorage.repeatSlice nil slice count
      s.drop
      .ok (made, [])
  | repeatSelf count => do
      let slice ← s.toVec 0 s.len
      let made ← ListStorage.repeatSlice nil slice count
      s.drop
      .ok (made, [])
  | clear => .ok (s.clear, [])
  | set i v => (·, []) <$> s.set i v

/-- The same on a sequence. -/
def spec (xs : List V) : ListOp V → Except Fault (List V × List V)
  | push v => .ok (xs ++ [v], [])
  | pop => .ok (xs.dropLast, xs.getLast?.toList)
  | insert index v =>
      if index ≤ xs.length then .ok (xs.take index ++ v :: xs.drop index, []) else .error .panic
  | remove index =>
      if index < xs.length then .ok (xs.take index ++ xs.drop (index + 1), xs[index]?.toList)
      else .error .panic
  | drain start stop =>
      if start ≤ stop ∧ stop ≤ xs.length then
        .ok (xs.take start ++ xs.drop stop, (xs.drop start).take (stop - start))
      else .error .panic
  | truncate n => .ok (xs.take n, [])
  | extend other => .ok (xs ++ other, [])
  | extendFromSlice other => .ok (xs ++ other, [])
  | extendSelf => .ok (xs ++ xs, [])
  | .repeatSlice slice count => .ok ((List.replicate count slice).flatten, [])
  | repeatSelf count => .ok ((List.replicate count xs).flatten, [])
  | clear => .ok ([], [])
  | set i v => if i < xs.length then .ok (xs.set i v, []) else .error .panic

/-- The capacity an operation asks for when the list has to grow. -/
def asks (s : ListStorage V) : ListOp V → Nat
  | push _ => if s.len = s.effectiveCap then s.pushCap else 0
  | insert _ _ => if s.len = s.effectiveCap then s.pushCap else 0
  | extend other => if s.effectiveCap < s.len + other.length then s.reserveCap other.length else 0
  | extendFromSlice other =>
      if s.effectiveCap < s.len + other.length then s.reserveCap other.length else 0
  | extendSelf => if s.effectiveCap < s.len + s.len then s.reserveCap s.len else 0
  | _ => 0

/-- A run of operations, with what each hands back. -/
def runAll (nil : V) (s : ListStorage V) :
    List (ListOp V) → Except Fault (ListStorage V × List (List V))
  | [] => .ok (s, [])
  | op :: ops => do
      let (s, out) ← op.run nil s
      let (s, outs) ← runAll nil s ops
      .ok (s, out :: outs)

def specAll (xs : List V) : List (ListOp V) → Except Fault (List V × List (List V))
  | [] => .ok (xs, [])
  | op :: ops => do
      let (xs, out) ← op.spec xs
      let (xs, outs) ← specAll xs ops
      .ok (xs, out :: outs)

end ListOp

namespace ListStorage

variable {V : Type} {s : ListStorage V} {xs ys : List V}

/-- The storage holds a sequence: the elements, then slots that are not of the list, in as much
memory as it knows of. -/
structure Holds (s : ListStorage V) (xs : List V) : Prop where
  data : ∃ spare, s.data = xs.map some ++ spare
  len : s.len = xs.length
  room : s.data.length = s.effectiveCap
  wide : inlineCap ≤ s.effectiveCap

theorem data_withData (slots : List (Option V)) : (s.withData slots).data = slots := by
  unfold withData data
  cases h : s.ptr with
  | none => simp only [Option.getD_none]
  | some _ => simp only [Option.getD_some]

theorem cap_withData (slots : List (Option V)) :
    (s.withData slots).effectiveCap = s.effectiveCap := by
  unfold withData effectiveCap
  cases h : s.ptr with
  | none => simp only
  | some _ => simp only

theorem len_withData (slots : List (Option V)) : (s.withData slots).len = s.len := by
  unfold withData
  cases s.ptr <;> rfl

namespace Holds

theorem le (h : s.Holds xs) : xs.length ≤ s.effectiveCap := by
  obtain ⟨spare, hdata⟩ := h.data
  have hroom := h.room
  rw [hdata, List.length_append, List.length_map] at hroom
  omega

/-- Other elements in as much memory. -/
theorem withData (h : s.Holds xs) {d p : List (Option V)} {y : List V} {n : Nat}
    (hslots : d = y.map some ++ p) (hlength : d.length = s.data.length)
    (hn : n = y.length) : Holds { s.withData d with len := n } y where
  data := ⟨p, (data_withData d).trans hslots⟩
  len := hn
  room := by
    have hcap := cap_withData (s := s) d
    have hdata := data_withData (s := s) d
    calc (ListStorage.data { s.withData d with len := n }).length = d.length :=
          congrArg List.length hdata
      _ = s.effectiveCap := hlength.trans h.room
      _ = _ := hcap.symm
  wide := (cap_withData d).symm ▸ h.wide

theorem growTo (h : s.Holds xs) {c : Nat} (hfit : xs.length ≤ c)
    (hwide : inlineCap ≤ c) (hcap : c < 2 ^ 32) :
    ∃ t, s.growTo c = .ok t ∧ t.Holds xs ∧ t.effectiveCap = c := by
  obtain ⟨spare, hdata⟩ := h.data
  have hlen := h.len
  have hroom := h.room
  have hmod : c % 2 ^ 32 = c := Nat.mod_eq_of_lt hcap
  unfold ListStorage.growTo
  rw [if_neg (by omega)]
  cases hptr : s.ptr with
  | none =>
      have hinline : s.inline = xs.map some ++ spare := by
        rw [← hdata, ListStorage.data, hptr, Option.getD_none]
      simp only
      have hle : s.len ≤ s.inline.length := by
        rw [hinline, List.length_append, List.length_map]
        omega
      rw [if_pos ⟨hle, by omega⟩, hmod]
      refine ⟨_, rfl, ⟨⟨List.replicate (c - s.len) none, ?_⟩, hlen, ?_, hwide⟩, rfl⟩
      · simp only [ListStorage.data, Option.getD_some, hinline]
        rw [List.take_left' (by rw [List.length_map, hlen])]
      · simp only [ListStorage.data, Option.getD_some, effectiveCap, List.length_append,
          List.length_take, List.length_replicate]
        omega
  | some slots =>
      have hslots : slots = xs.map some ++ spare := by
        rw [← hdata, ListStorage.data, hptr, Option.getD_some]
      simp only [ListStorage.data, effectiveCap, hptr, Option.getD_some] at hroom
      simp only
      rw [if_pos hroom, hmod]
      refine ⟨_, rfl, ⟨⟨spare.take (c - xs.length) ++
        List.replicate (c - slots.length) none, ?_⟩, hlen, ?_, hwide⟩, rfl⟩
      · simp only [ListStorage.data, Option.getD_some]
        rw [hslots, List.take_append, List.length_map, List.take_of_length_le (by simpa using hfit),
          List.append_assoc]
      · simp only [ListStorage.data, Option.getD_some, effectiveCap, List.length_append,
          List.length_take, List.length_replicate]
        omega

theorem pushCap (s : ListStorage V) : s.pushCap = s.effectiveCap * 2 := by
  unfold ListStorage.pushCap effectiveCap
  cases s.ptr <;> rfl

theorem makeRoom (h : s.Holds xs) (hasks : s.len = s.effectiveCap → s.pushCap < 2 ^ 32) :
    ∃ t, s.makeRoom = .ok t ∧ t.Holds xs ∧ xs.length < t.effectiveCap := by
  have hle := h.le
  have hlen := h.len
  have hwide := h.wide
  unfold ListStorage.makeRoom
  by_cases hfull : s.len = s.effectiveCap
  · have hasks := hasks hfull
    rw [if_pos hfull, growForPush]
    rw [pushCap] at hasks ⊢
    obtain ⟨t, hgrow, ht, hcap⟩ :=
      h.growTo (c := s.effectiveCap * 2) (by omega) (by omega) hasks
    refine ⟨t, hgrow, ht, ?_⟩
    unfold inlineCap at hwide
    omega
  · rw [if_neg hfull]
    exact ⟨s, rfl, h, by omega⟩

theorem reserve (h : s.Holds xs) {n : Nat} (hsum : xs.length + n < 2 ^ 32)
    (hasks : s.effectiveCap < s.len + n → s.reserveCap n < 2 ^ 32) :
    ∃ t, s.reserve n = .ok t ∧ t.Holds xs ∧ xs.length + n ≤ t.effectiveCap := by
  have hlen := h.len
  have hwide := h.wide
  unfold ListStorage.reserve
  rw [if_neg (by omega)]
  by_cases hshort : s.effectiveCap < s.len + n
  · have hasks := hasks hshort
    have hmore : s.len + n ≤ s.reserveCap n :=
      Nat.le_trans (Nat.le_max_left _ _) (Nat.le_max_left _ _)
    rw [if_pos hshort]
    obtain ⟨t, hgrow, ht, hcap⟩ := h.growTo (c := s.reserveCap n) (by omega) (by omega) hasks
    exact ⟨t, hgrow, ht, by omega⟩
  · rw [if_neg hshort]
    exact ⟨s, rfl, h, by omega⟩

/-- Writing over an element, or past the last. -/
theorem write (h : s.Holds xs) {i : Nat} (v : V) (hi : i < s.effectiveCap) :
    s.write i v = .ok (s.withData (s.data.set i (some v))) := by
  unfold ListStorage.write
  rw [h.room, if_pos hi]

theorem push_end (h : s.Holds xs) (v : V) (hroom : xs.length < s.effectiveCap)
    (hlen : xs.length + 1 < 2 ^ 32) :
    ∃ t, s.write s.len v = .ok t ∧
      Holds { t with len := (s.len + 1) % 2 ^ 32 } (xs ++ [v]) ∧
      t.effectiveCap = s.effectiveCap := by
  obtain ⟨spare, hdata⟩ := h.data
  have hsize := h.room
  refine ⟨_, h.write v (h.len ▸ hroom), h.withData (p := spare.tail) ?_ ?_ ?_, cap_withData _⟩
  · cases spare with
    | nil =>
        rw [hdata, List.append_nil, List.length_map] at hsize
        omega
    | cons slot spare =>
        rw [hdata, h.len, List.set_append_right _ _ (Nat.le_of_eq (List.length_map _)),
          List.length_map, Nat.sub_self, List.set_cons_zero, List.map_append, List.append_assoc]
        rfl
  · exact List.length_set
  · rw [h.len, List.length_append, List.length_singleton]
    exact Nat.mod_eq_of_lt hlen

theorem push (h : s.Holds xs) (v : V) (hasks : s.len = s.effectiveCap → s.pushCap < 2 ^ 32)
    (hlen : xs.length + 1 < 2 ^ 32) :
    ∃ t, s.push v = .ok t ∧ t.Holds (xs ++ [v]) := by
  obtain ⟨m, hm, hholds, hroom⟩ := h.makeRoom hasks
  obtain ⟨t, hwrite, ht, -⟩ := hholds.push_end v hroom hlen
  refine ⟨_, ?_, ht⟩
  simp only [ListStorage.push, hm, hwrite, bind, Except.bind]

theorem read (h : s.Holds xs) {i : Nat} {v : V} (hv : xs[i]? = some v) : s.read i = .ok v := by
  obtain ⟨spare, hdata⟩ := h.data
  have hi := (List.getElem?_eq_some_iff.mp hv).1
  have hslot : s.data[i]? = some (some v) := by
    rw [hdata, List.getElem?_append_left (by rwa [List.length_map]), List.getElem?_map, hv]
    rfl
  unfold ListStorage.read
  simp only [hslot]
  rw [if_pos (by rwa [h.len])]

theorem mapM_read (h : s.Holds xs) (start n : Nat) (hle : start + n ≤ xs.length) :
    (List.range' start n).mapM s.read = .ok ((xs.drop start).take n) := by
  induction n generalizing start with
  | zero => rfl
  | succ n ih =>
      have hlt : start < xs.length := by omega
      rw [List.range'_succ, List.mapM_cons, h.read (List.getElem?_eq_getElem hlt),
        ih (start + 1) (by omega), List.drop_eq_getElem_cons hlt, List.take_succ_cons]
      rfl

theorem toVec (h : s.Holds xs) {start stop : Nat} (hle : start ≤ stop) (hstop : stop ≤ xs.length) :
    s.toVec start stop = .ok ((xs.drop start).take (stop - start)) :=
  h.mapM_read start (stop - start) (by omega)

theorem toVec_all (h : s.Holds xs) : s.toVec 0 s.len = .ok xs := by
  rw [h.toVec (Nat.zero_le _) (Nat.le_of_eq h.len), h.len, Nat.sub_zero, List.drop_zero,
    List.take_length]

theorem pop (h : s.Holds xs) :
    ∃ t, s.pop = .ok (t, xs.getLast?.toList) ∧ t.Holds xs.dropLast := by
  obtain ⟨spare, hdata⟩ := h.data
  unfold ListStorage.pop
  by_cases hzero : s.len = 0
  · have hnil : xs = [] := List.length_eq_zero_iff.mp (h.len ▸ hzero)
    subst hnil
    rw [if_pos hzero]
    exact ⟨s, rfl, h⟩
  · obtain ⟨front, v, rfl⟩ : ∃ front v, xs = front ++ [v] := by
      refine ⟨xs.dropLast, xs.getLast (fun hnil => hzero ?_), (List.dropLast_append_getLast _).symm⟩
      rw [h.len, hnil]
      rfl
    have hlast : s.len - 1 = front.length := by
      rw [h.len, List.length_append]
      rfl
    rw [if_neg hzero, hlast, h.read (v := v) (by simp)]
    refine ⟨{ s with len := front.length }, ?_, ⟨some v :: spare, ?_⟩, ?_, h.room, h.wide⟩
    · simp only [bind, Except.bind, List.getLast?_append_of_ne_nil _ (List.cons_ne_nil v []),
        List.getLast?_singleton, Option.toList_some]
    · rw [List.dropLast_concat]
      exact hdata.trans (by simp only [List.map_append, List.append_assoc]; rfl)
    · rw [List.dropLast_concat]

/-- Fewer of the elements, in the same memory. -/
theorem shorter (h : s.Holds (xs ++ ys)) : Holds { s with len := xs.length } xs where
  data := by
    obtain ⟨spare, hdata⟩ := h.data
    exact ⟨ys.map some ++ spare, hdata.trans (by rw [List.map_append, List.append_assoc])⟩
  len := rfl
  room := h.room
  wide := h.wide

theorem truncate (h : s.Holds xs) (n : Nat) : (s.truncate n).Holds (xs.take n) := by
  unfold ListStorage.truncate
  have hlen := h.len
  split
  · next hn =>
      have hsplit : s.Holds (xs.take n ++ xs.drop n) := by rwa [List.take_append_drop]
      have hshort := hsplit.shorter
      rwa [List.length_take, Nat.min_eq_left (by omega)] at hshort
  · next hn =>
      rw [List.take_of_length_le (by omega)]
      exact h

theorem clear (h : s.Holds xs) : s.clear.Holds [] := @Holds.shorter V s [] xs h

theorem set (h : s.Holds xs) (v : V) {i : Nat} (hi : i < xs.length) :
    ∃ t, s.set i v = .ok t ∧ t.Holds (xs.set i v) := by
  obtain ⟨spare, hdata⟩ := h.data
  have hle := h.le
  have hlen := h.len
  unfold ListStorage.set
  rw [if_pos (by omega), h.write v (by omega)]
  refine ⟨_, rfl, ?_⟩
  have hset := h.withData (d := s.data.set i (some v)) (y := xs.set i v) (p := spare)
    (n := s.len) ?_ List.length_set (by rw [List.length_set, hlen])
  · have hsame := len_withData (s := s) (s.data.set i (some v))
    exact ⟨hset.data, hsame.trans hset.len, hset.room, hset.wide⟩
  · rw [hdata, List.set_append_left _ _ (by rwa [List.length_map]), List.map_set]

theorem withData_withData (a b : List (Option V)) :
    (s.withData a).withData b = s.withData b := by
  unfold ListStorage.withData
  cases h : s.ptr with
  | none => simp only
  | some _ => simp only

/-- Elements moved up by one, with another written where they were. -/
theorem set_shift {α : Type} (front back spare : List α) (slot v : α) :
    ((front ++ (back ++ slot :: spare)).take (front.length + 1) ++
      (((front ++ (back ++ slot :: spare)).drop front.length).take back.length ++
        (front ++ (back ++ slot :: spare)).drop (front.length + 1 + back.length))).set
          front.length v = front ++ v :: (back ++ spare) := by
  obtain ⟨first, rest, hfirst⟩ : ∃ first rest, back ++ slot :: spare = first :: rest := by
    cases back with
    | nil => exact ⟨slot, spare, rfl⟩
    | cons a back => exact ⟨a, back ++ slot :: spare, rfl⟩
  have htake : (front ++ (back ++ slot :: spare)).take (front.length + 1) = front ++ [first] := by
    rw [hfirst, List.take_append, List.take_of_length_le (Nat.le_succ _), Nat.add_sub_cancel_left]
    rfl
  have hdrop :
      (front ++ (back ++ slot :: spare)).drop (front.length + 1 + back.length) = spare := by
    rw [Nat.add_assoc, List.drop_append, List.drop_of_length_le (Nat.le_add_right _ _),
      Nat.add_sub_cancel_left, List.drop_append, List.drop_of_length_le (Nat.le_add_left _ _),
      Nat.add_sub_cancel]
    rfl
  rw [htake, hdrop, List.drop_left, List.take_left, List.append_assoc,
    List.set_append_right _ _ (Nat.le_refl _), Nat.sub_self]
  rfl

theorem insert (h : s.Holds xs) {i : Nat} (v : V) (hi : i ≤ xs.length)
    (hasks : s.len = s.effectiveCap → s.pushCap < 2 ^ 32) (hlen : xs.length + 1 < 2 ^ 32) :
    ∃ t, s.insert i v = .ok t ∧ t.Holds (xs.take i ++ v :: xs.drop i) := by
  obtain ⟨m, hm, hholds, hroom⟩ := h.makeRoom hasks
  obtain ⟨spare, hdata⟩ := hholds.data
  have hsize := hholds.room
  obtain ⟨front, back, rfl, rfl⟩ : ∃ front back, xs = front ++ back ∧ i = front.length :=
    ⟨xs.take i, xs.drop i, (List.take_append_drop i xs).symm, (List.length_take_of_le hi).symm⟩
  have hcount : m.len = front.length + back.length := hholds.len.trans List.length_append
  cases spare with
  | nil =>
      rw [hdata, List.append_nil, List.length_map] at hsize
      omega
  | cons slot spare =>
      have hslots : m.data = front.map some ++ (back.map some ++ slot :: spare) := by
        rw [hdata, List.map_append, List.append_assoc]
      have hshift := set_shift (front.map some) (back.map some) spare slot (some v)
      rw [List.length_map, List.length_map, ← hslots] at hshift
      have htotal : m.data.length = front.length + (back.length + (spare.length + 1)) := by
        rw [hslots]
        simp only [List.length_append, List.length_map, List.length_cons]
      have hcopy : m.copy front.length (front.length + 1) (m.len - front.length) =
          .ok (m.withData (m.data.take (front.length + 1) ++
            ((m.data.drop front.length).take back.length ++
              m.data.drop (front.length + 1 + back.length)))) := by
        rw [hcount, Nat.add_sub_cancel_left, ListStorage.copy, if_pos (by omega)]
      have hstays := congrArg List.length hshift
      rw [List.length_set] at hstays
      have hwrite : ∀ d : List (Option V), d.length = m.data.length →
          (m.withData d).write front.length v =
            .ok (m.withData (d.set front.length (some v))) := by
        intro d hd
        rw [ListStorage.write, data_withData, if_pos (by omega), withData_withData]
      have hfinal :
          (front.map some ++ some v :: (back.map some ++ spare)).length = m.data.length := by
        rw [htotal]
        simp only [List.length_append, List.length_map, List.length_cons]
        omega
      have hends := hholds.withData (y := front ++ v :: back) (p := spare)
        (n := (m.len + 1) % 2 ^ 32)
        (d := front.map some ++ some v :: (back.map some ++ spare)) ?_ hfinal ?_
      · refine ⟨_, ?_, by rwa [List.take_left, List.drop_left]⟩
        have hle : ¬s.len < front.length := by
          rw [h.len, List.length_append]
          omega
        simp only [ListStorage.insert, if_neg hle, hm, hcopy, hwrite _ (hstays.trans hfinal),
          hshift, bind, Except.bind]
      · rw [List.map_append, List.map_cons, List.append_assoc]
        rfl
      · rw [hcount, List.length_append, List.length_cons]
        rw [List.length_append] at hlen
        exact Nat.mod_eq_of_lt (by omega)

/-- Elements moved down over those before them. -/
theorem copy_down {front middle back : List V} (h : s.Holds (front ++ (middle ++ back))) :
    ∃ t : ListStorage V, s.copy (front.length + middle.length) front.length back.length = .ok t ∧
      Holds { t with len := front.length + back.length } (front ++ back) := by
  obtain ⟨spare, hdata⟩ := h.data
  have hcount : s.len = front.length + (middle.length + back.length) := by
    rw [h.len, List.length_append, List.length_append]
  have hslots : s.data = front.map some ++ (middle.map some ++ (back.map some ++ spare)) := by
    rw [hdata]
    simp only [List.map_append, List.append_assoc]
  have htotal : s.data.length =
      front.length + (middle.length + (back.length + spare.length)) := by
    rw [hslots]
    simp only [List.length_append, List.length_map]
  have htake : s.data.take front.length = front.map some := by
    rw [hslots, List.take_left' (List.length_map _)]
  have hmoved : (s.data.drop (front.length + middle.length)).take back.length = back.map some := by
    rw [hslots, ← List.append_assoc, List.drop_left' (by simp), List.take_left' (List.length_map _)]
  refine ⟨_, if_pos (by omega),
    h.withData (p := s.data.drop (front.length + back.length)) ?_ ?_ ?_⟩
  · rw [htake, hmoved, List.map_append, List.append_assoc]
  · rw [htake, hmoved]
    simp only [List.length_append, List.length_map, List.length_drop]
    omega
  · rw [List.length_append]

theorem remove (h : s.Holds xs) {i : Nat} (hi : i < xs.length) :
    ∃ t, s.remove i = .ok (t, xs[i]?.toList) ∧ t.Holds (xs.take i ++ xs.drop (i + 1)) := by
  obtain ⟨front, v, back, rfl, rfl⟩ : ∃ front v back, xs = front ++ ([v] ++ back) ∧
      i = front.length :=
    ⟨xs.take i, xs[i], xs.drop (i + 1), by simp, (List.length_take_of_le (by omega)).symm⟩
  obtain ⟨t, hcopy, ht⟩ := h.copy_down
  have hcount := h.len
  simp only [List.length_append, List.length_singleton] at hcount hcopy
  have hone : s.len - front.length - 1 = back.length := by omega
  have hget : (front ++ ([v] ++ back))[front.length]? = some v := by simp
  refine ⟨{ t with len := s.len - 1 }, ?_, ?_⟩
  · rw [ListStorage.remove, if_neg (by omega), h.read hget]
    simp only [bind, Except.bind, hone, hcopy, hget, Option.toList_some]
  · have hleft : s.len - 1 = front.length + back.length := by omega
    rw [hleft]
    simpa using ht

theorem drain (h : s.Holds xs) {start stop : Nat} (hle : start ≤ stop) (hstop : stop ≤ xs.length)
    (hlen : xs.length < 2 ^ 32) :
    ∃ t, s.drain start stop = .ok (t, (xs.drop start).take (stop - start)) ∧
      t.Holds (xs.take start ++ xs.drop stop) := by
  have hvec := h.toVec hle hstop
  obtain ⟨front, middle, back, rfl, rfl, rfl⟩ : ∃ front middle back,
      xs = front ++ (middle ++ back) ∧
      start = front.length ∧ stop = front.length + middle.length := by
    refine ⟨xs.take start, (xs.drop start).take (stop - start), xs.drop stop, ?_, ?_, ?_⟩
    · have hsplit : xs.drop stop = (xs.drop start).drop (stop - start) := by
        rw [List.drop_drop, Nat.add_sub_cancel' hle]
      rw [hsplit, List.take_append_drop, List.take_append_drop]
    · rw [List.length_take_of_le (by omega)]
    · rw [List.length_take_of_le (by omega), List.length_take, List.length_drop]
      omega
  obtain ⟨t, hcopy, ht⟩ := h.copy_down
  have hcount := h.len
  simp only [List.length_append] at hcount hstop hlen
  have hrest : s.len - (front.length + middle.length) = back.length := by omega
  refine ⟨{ t with
    len := s.len - (front.length + middle.length - front.length) % 2 ^ 32 }, ?_, ?_⟩
  · rw [ListStorage.drain, if_pos (by omega), hvec]
    simp only [bind, Except.bind, hrest, hcopy]
  · have hmod : (front.length + middle.length - front.length) % 2 ^ 32 = middle.length := by
      rw [Nat.add_sub_cancel_left]
      exact Nat.mod_eq_of_lt (by omega)
    have hleft : s.len - middle.length = front.length + back.length := by omega
    rw [hmod, hleft, List.take_left, ← List.append_assoc, List.drop_left' (by simp)]
    exact ht

theorem pushes (h : s.Holds xs) (vs : List V) (hroom : xs.length + vs.length ≤ s.effectiveCap)
    (hlen : xs.length + vs.length < 2 ^ 32) :
    ∃ t, vs.foldlM ListStorage.push s = .ok t ∧ t.Holds (xs ++ vs) := by
  induction vs generalizing s xs with
  | nil => exact ⟨s, rfl, by rwa [List.append_nil]⟩
  | cons v vs ih =>
      rw [List.length_cons] at hroom hlen
      have hcount := h.len
      obtain ⟨t, hwrite, ht, hcap⟩ := h.push_end v (by omega) (by omega)
      obtain ⟨u, hu, hholds⟩ := ih ht (by
        rw [List.length_append, List.length_singleton]
        exact Nat.le_trans (by omega) (Nat.le_of_eq hcap.symm)) (by
        rw [List.length_append, List.length_singleton]
        omega)
      refine ⟨u, ?_, by rwa [List.append_assoc] at hholds⟩
      have hpush : s.push v = .ok { t with len := (s.len + 1) % 2 ^ 32 } := by
        simp only [ListStorage.push, ListStorage.makeRoom]
        rw [if_neg (by omega)]
        simp only [bind, Except.bind, hwrite]
      rw [List.foldlM_cons, hpush]
      exact hu

theorem extend (h : s.Holds xs) (other : List V) (hlen : xs.length + other.length < 2 ^ 32)
    (hasks : s.effectiveCap < s.len + other.length → s.reserveCap other.length < 2 ^ 32) :
    ∃ t, s.extend other = .ok t ∧ t.Holds (xs ++ other) := by
  obtain ⟨m, hm, hholds, hroom⟩ := h.reserve hlen hasks
  obtain ⟨t, hpushes, ht⟩ := hholds.pushes other hroom hlen
  refine ⟨t, ?_, ht⟩
  rw [ListStorage.extend, hm]
  exact hpushes

theorem extendFromSlice (h : s.Holds xs) (other : List V) (hlen : xs.length + other.length < 2 ^ 32)
    (hasks : s.effectiveCap < s.len + other.length → s.reserveCap other.length < 2 ^ 32) :
    ∃ t, s.extendFromSlice other = .ok t ∧ t.Holds (xs ++ other) := by
  obtain ⟨m, hm, hholds, hroom⟩ := h.reserve hlen hasks
  obtain ⟨spare, hdata⟩ := hholds.data
  have hcount := hholds.len
  have hsize := hholds.room
  have htake : m.data.take m.len = xs.map some := by
    rw [hdata, List.take_left' (by rw [List.length_map, hcount])]
  have hcopy : m.copyFrom m.len other = .ok (m.withData (m.data.take m.len ++
      (other.map some ++ m.data.drop (m.len + other.length)))) := if_pos (by omega)
  have hends := hholds.withData (y := xs ++ other) (p := m.data.drop (m.len + other.length))
    (d := m.data.take m.len ++ (other.map some ++ m.data.drop (m.len + other.length)))
    (n := (m.len + other.length % 2 ^ 32) % 2 ^ 32) ?_ ?_ ?_
  refine ⟨_, ?_, hends⟩
  · simp only [ListStorage.extendFromSlice, hm, hcopy, bind, Except.bind]
  · rw [htake, List.map_append, List.append_assoc]
  · rw [htake]
    simp only [List.length_append, List.length_map, List.length_drop]
    omega
  · rw [List.length_append, hcount,
      Nat.mod_eq_of_lt (Nat.lt_of_le_of_lt (Nat.le_add_left _ _) hlen)]
    exact Nat.mod_eq_of_lt hlen

/-- Writing one element after the other gives a longer sequence. -/
theorem fill (vs : List V) (h : Holds { s with len := xs.length } xs)
    (hroom : xs.length + vs.length ≤ s.effectiveCap) :
    ∃ t, s.fill xs.length vs = .ok t ∧
      Holds { t with len := xs.length + vs.length } (xs ++ vs) := by
  induction vs generalizing s xs with
  | nil => exact ⟨s, rfl, by rwa [List.append_nil]⟩
  | cons v vs ih =>
      rw [List.length_cons] at hroom
      obtain ⟨spare, hdata⟩ := h.data
      have hdata : s.data = xs.map some ++ spare := hdata
      have hsize : s.data.length = s.effectiveCap := h.room
      have hsame : ∀ d : List (Option V),
          ({ s.withData d with len := xs.length + 1 } : ListStorage V) =
          { ListStorage.withData { s with len := xs.length } d with len := xs.length + 1 } := by
        intro d
        unfold ListStorage.withData
        cases s.ptr <;> rfl
      have hnext := h.withData (d := s.data.set xs.length (some v)) (y := xs ++ [v])
        (p := spare.tail) (n := xs.length + 1) ?_ List.length_set (by simp)
      · rw [← hsame] at hnext
        have hnext : Holds { s.withData (s.data.set xs.length (some v)) with
            len := (xs ++ [v]).length } (xs ++ [v]) := by
          rw [List.length_append]
          exact hnext
        obtain ⟨t, ht, hholds⟩ := ih hnext (by
          rw [List.length_append, List.length_singleton, cap_withData]
          omega)
        refine ⟨t, ?_, ?_⟩
        · have hwrite : s.write xs.length v = .ok (s.withData (s.data.set xs.length (some v))) :=
            if_pos (by omega)
          rw [List.length_append] at ht
          simp only [ListStorage.fill, hwrite, bind, Except.bind]
          exact ht
        · have hcount : (xs ++ [v]).length + vs.length = xs.length + (v :: vs).length := by
            simp only [List.length_append, List.length_cons, List.length_nil]
            omega
          rw [hcount, List.append_assoc] at hholds
          exact hholds
      · cases spare with
        | nil =>
            rw [hdata, List.append_nil, List.length_map] at hsize
            omega
        | cons slot spare =>
            rw [hdata, List.set_append_right _ _ (Nat.le_of_eq (List.length_map _)),
              List.length_map, Nat.sub_self, List.set_cons_zero, List.map_append, List.append_assoc]
            rfl

theorem drop (h : s.Holds xs) : s.drop = .ok () := by
  have hroom := h.room
  unfold ListStorage.drop
  cases hptr : s.ptr with
  | none => rfl
  | some slots =>
      simp only [ListStorage.data, effectiveCap, hptr, Option.getD_some] at hroom
      exact if_pos hroom

end Holds

theorem holds_new (nil : V) : (new nil).Holds [] where
  data := ⟨List.replicate inlineCap (some nil), rfl⟩
  len := rfl
  room := List.length_replicate
  wide := Nat.le_refl _

theorem holds_withCapacity (nil : V) {n : Nat} (hn : n < 2 ^ 32) :
    ∃ t, withCapacity nil n = .ok t ∧ t.Holds [] ∧ n ≤ t.effectiveCap := by
  unfold withCapacity
  by_cases hmany : inlineCap < n
  · rw [if_pos hmany]
    obtain ⟨t, hgrow, ht, hcap⟩ := (holds_new nil).growTo (Nat.zero_le n) (Nat.le_of_lt hmany) hn
    exact ⟨t, hgrow, ht, Nat.le_of_eq hcap.symm⟩
  · rw [if_neg hmany]
    exact ⟨_, rfl, holds_new nil, Nat.le_of_not_lt hmany⟩

theorem Holds.filled {w : List V} (h : s.Holds []) (hroom : w.length ≤ s.effectiveCap) :
    ∃ t, s.fill 0 w = .ok t ∧ Holds { t with len := w.length } w := by
  have hempty : Holds { s with len := ([] : List V).length } [] := ⟨h.data, rfl, h.room, h.wide⟩
  obtain ⟨t, ht, hholds⟩ := hempty.fill w (by rwa [List.length_nil, Nat.zero_add])
  rw [List.length_nil, Nat.zero_add] at hholds
  exact ⟨t, ht, hholds⟩

theorem holds_fromElem (nil elem : V) {count : Nat} (hcount : count < 2 ^ 32) :
    ∃ t, fromElem nil elem count = .ok t ∧ t.Holds (List.replicate count elem) := by
  obtain ⟨m, hm, hholds, hroom⟩ := holds_withCapacity nil hcount
  obtain ⟨t, ht, hfilled⟩ := hholds.filled (w := List.replicate count elem)
    (by rwa [List.length_replicate])
  rw [List.length_replicate] at hfilled
  refine ⟨{ t with len := count }, ?_, hfilled⟩
  simp only [fromElem, hm, ht, Nat.mod_eq_of_lt hcount, bind, Except.bind]

theorem holds_repeatSlice (nil : V) (slice : List V) {count : Nat}
    (hlen : (List.replicate count slice).flatten.length < 2 ^ 32) :
    ∃ t, repeatSlice nil slice count = .ok t ∧ t.Holds (List.replicate count slice).flatten := by
  have htotal : (List.replicate count slice).flatten.length = slice.length * count := by
    rw [List.length_flatten, List.map_replicate, List.sum_replicate_nat, Nat.mul_comm]
  rw [htotal] at hlen
  have hmin : min (slice.length * count) (2 ^ 64 - 1) = slice.length * count :=
    Nat.min_eq_left (by omega)
  obtain ⟨m, hm, hholds, hroom⟩ := holds_withCapacity nil hlen
  unfold repeatSlice
  rw [hmin]
  simp only [hm, bind, Except.bind]
  split
  · next elem =>
      rw [List.length_singleton, Nat.one_mul] at hlen
      obtain ⟨t, ht, hfilled⟩ := holds_fromElem nil elem hlen
      have hflat : (List.replicate count [elem]).flatten = List.replicate count elem := by
        rw [List.flatten_replicate_singleton]
      rw [hflat]
      simp only [hholds.drop]
      exact ⟨t, ht, hfilled⟩
  · obtain ⟨t, ht, hfilled⟩ := hholds.filled (w := (List.replicate count slice).flatten)
      (by rwa [htotal])
    rw [htotal] at hfilled
    simp only [ht, Nat.mod_eq_of_lt hlen]
    exact ⟨_, rfl, hfilled⟩

theorem cap_fill (vs : List V) {i : Nat} {t : ListStorage V} (h : s.fill i vs = .ok t) :
    t.effectiveCap = s.effectiveCap := by
  induction vs generalizing s i with
  | nil =>
      obtain rfl := Except.ok.inj h
      rfl
  | cons v vs ih =>
      simp only [fill, write, bind, Except.bind] at h
      by_cases hi : i < s.data.length
      · rw [if_pos hi] at h
        rw [ih h, cap_withData]
      · rw [if_neg hi] at h
        exact nomatch h

theorem effectiveCap_repeatSlice (nil v : V) {n : Nat} (hmany : inlineCap < n) (hn : n < 2 ^ 32) :
    ∃ t, repeatSlice nil [v] n = .ok t ∧ t.Holds (List.replicate n v) ∧ t.effectiveCap = n := by
  obtain ⟨m, hm, hholds, hcap⟩ := (holds_new nil).growTo (Nat.zero_le n) (Nat.le_of_lt hmany) hn
  have hwith : withCapacity nil n = .ok m := by rw [withCapacity, if_pos hmany, hm]
  obtain ⟨t, ht, hfilled⟩ := hholds.filled (w := List.replicate n v)
    (by rw [List.length_replicate]; exact Nat.le_of_eq hcap.symm)
  rw [List.length_replicate] at hfilled
  refine ⟨{ t with len := n }, ?_, hfilled, ?_⟩
  · have hmin : min ([v].length * n) (2 ^ 64 - 1) = n := by
      rw [List.length_singleton, Nat.one_mul]
      exact Nat.min_eq_left (by omega)
    simp only [repeatSlice, hmin, hwith, hholds.drop, fromElem, ht, Nat.mod_eq_of_lt hn, bind,
      Except.bind]
  · have hsame : effectiveCap { t with len := n } = t.effectiveCap := rfl
    rw [hsame, cap_fill _ ht, hcap]

/-- A full list of `2^31` elements has no capacity left to its name when it has grown. -/
theorem Holds.push_wraps (h : s.Holds xs) (v : V) (hfull : xs.length = s.effectiveCap)
    (hhalf : s.effectiveCap = 2 ^ 31) :
    ∃ t, s.push v = .ok t ∧ t.len = xs.length + 1 ∧ t.effectiveCap = 0 := by
  have hlen := h.len
  cases hp : s.ptr with
  | none =>
      simp only [effectiveCap, hp, inlineCap] at hhalf
      exact absurd hhalf (by omega)
  | some slots =>
      have hroom := h.room
      rw [ListStorage.data, hp, Option.getD_some] at hroom
      have hcap : s.cap = s.effectiveCap := by rw [effectiveCap, hp]
      obtain ⟨t, hgrow, hlonger, hcount, hptr, hzero⟩ : ∃ t, s.growForPush = .ok t ∧
          s.len < t.data.length ∧ t.len = s.len ∧ t.ptr.isSome ∧ t.cap = 0 := by
        refine ⟨{ s with
          ptr := some (slots.take (s.cap * 2) ++ List.replicate (s.cap * 2 - slots.length) none)
          cap := s.cap * 2 % 2 ^ 32 }, ?_, ?_, rfl, rfl, ?_⟩
        · simp only [growForPush, ListStorage.pushCap, ListStorage.growTo, hp]
          rw [if_neg (by omega), if_pos (hroom.trans hcap.symm)]
        · rw [ListStorage.data, Option.getD_some, List.length_append, List.length_take,
            List.length_replicate]
          omega
        · have hwrap : s.cap * 2 % 2 ^ 32 = 0 := by omega
          exact hwrap
      have hwrite : t.write t.len v = .ok (t.withData (t.data.set t.len (some v))) := by
        rw [ListStorage.write, if_pos (hcount ▸ hlonger)]
      have hmod : (t.len + 1) % 2 ^ 32 = xs.length + 1 := by omega
      refine ⟨{ t.withData (t.data.set t.len (some v)) with len := xs.length + 1 }, ?_, rfl, ?_⟩
      · rw [ListStorage.push, ListStorage.makeRoom, if_pos (hlen.trans hfull), hgrow]
        simp only [bind, Except.bind, hwrite, hmod]
      · have hsame := cap_withData (s := t) (t.data.set t.len (some v))
        obtain ⟨grown, hgrown⟩ := Option.isSome_iff_exists.mp hptr
        have hnone : t.effectiveCap = 0 := by simp only [effectiveCap, hgrown, hzero]
        exact hsame.trans hnone

end ListStorage

namespace ListOp

open ListStorage

variable {V : Type} {s : ListStorage V} {xs : List V}

/-- What an operation does to a sequence it does to the storage that holds it, as long as it
asks for no buffer of `2^32` slots. -/
theorem run_spec (nil : V) (h : s.Holds xs) (op : ListOp V) (hasks : op.asks s < 2 ^ 32)
    (hbefore : xs.length < 2 ^ 32) :
    match op.spec xs with
    | .ok (ys, out) => ys.length < 2 ^ 32 → ∃ t, op.run nil s = .ok (t, out) ∧ t.Holds ys
    | .error fault => op.run nil s = .error fault := by
  have hlen := h.len
  cases op with
  | push v =>
      intro hafter
      rw [List.length_append] at hafter
      obtain ⟨t, ht, hholds⟩ := h.push v (fun hfull => by rwa [asks, if_pos hfull] at hasks) hafter
      exact ⟨t, by rw [run, ht]; rfl, hholds⟩
  | pop =>
      intro _
      exact h.pop
  | insert index v =>
      simp only [spec]
      by_cases hi : index ≤ xs.length
      · rw [if_pos hi]
        intro hafter
        have hmore : xs.length + 1 < 2 ^ 32 := by
          rw [List.length_append, List.length_cons, List.length_take, List.length_drop] at hafter
          omega
        obtain ⟨t, ht, hholds⟩ := h.insert v hi
          (fun hfull => by rwa [asks, if_pos hfull] at hasks) hmore
        exact ⟨t, by rw [run, ht]; rfl, hholds⟩
      · rw [if_neg hi, run, ListStorage.insert, if_pos (by omega)]
        rfl
  | remove index =>
      simp only [spec]
      by_cases hi : index < xs.length
      · rw [if_pos hi]
        intro _
        exact h.remove hi
      · rw [if_neg hi, run, ListStorage.remove, if_pos (by omega)]
  | drain start stop =>
      simp only [spec]
      by_cases hrange : start ≤ stop ∧ stop ≤ xs.length
      · rw [if_pos hrange]
        intro _
        exact h.drain hrange.1 hrange.2 hbefore
      · rw [if_neg hrange, run, ListStorage.drain, if_neg (by rwa [hlen])]
  | truncate n =>
      intro _
      exact ⟨_, rfl, h.truncate n⟩
  | extend other =>
      intro hafter
      rw [List.length_append] at hafter
      obtain ⟨t, ht, hholds⟩ := h.extend other hafter
        (fun hshort => by rwa [asks, if_pos hshort] at hasks)
      exact ⟨t, by rw [run, ht]; rfl, hholds⟩
  | extendFromSlice other =>
      intro hafter
      rw [List.length_append] at hafter
      obtain ⟨t, ht, hholds⟩ := h.extendFromSlice other hafter
        (fun hshort => by rwa [asks, if_pos hshort] at hasks)
      exact ⟨t, by rw [run, ht]; rfl, hholds⟩
  | extendSelf =>
      intro hafter
      rw [List.length_append] at hafter
      obtain ⟨t, ht, hholds⟩ := h.extend xs hafter
        (fun hshort => by rw [← hlen] at hshort ⊢; rwa [asks, if_pos hshort] at hasks)
      refine ⟨t, ?_, hholds⟩
      rw [run, h.toVec_all]
      simp only [bind, Except.bind, ht]
      rfl
  | repeatSlice slice count =>
      intro hafter
      obtain ⟨t, ht, hholds⟩ := holds_repeatSlice nil slice hafter
      refine ⟨t, ?_, hholds⟩
      rw [run, ht]
      simp only [bind, Except.bind, h.drop]
  | repeatSelf count =>
      intro hafter
      obtain ⟨t, ht, hholds⟩ := holds_repeatSlice nil xs hafter
      refine ⟨t, ?_, hholds⟩
      rw [run, h.toVec_all]
      simp only [bind, Except.bind, ht, h.drop]
  | clear =>
      intro _
      exact ⟨_, rfl, h.clear⟩
  | set i v =>
      simp only [spec]
      by_cases hi : i < xs.length
      · rw [if_pos hi]
        intro _
        obtain ⟨t, ht, hholds⟩ := h.set v hi
        exact ⟨t, by rw [run, ht]; rfl, hholds⟩
      · rw [if_neg hi, run, ListStorage.set, if_neg (by omega)]
        rfl

/-- Every step of a run leaves fewer than `2^32` elements and asks for fewer slots. -/
def Within (nil : V) : List (ListOp V) → ListStorage V → List V → Prop
  | [], _, _ => True
  | op :: ops, s, xs => op.asks s < 2 ^ 32 ∧ ∀ ys out, op.spec xs = .ok (ys, out) →
      ys.length < 2 ^ 32 ∧ ∀ t, op.run nil s = .ok (t, out) → Within nil ops t ys

theorem runAll_spec (nil : V) (ops : List (ListOp V)) (h : s.Holds xs) (hlen : xs.length < 2 ^ 32)
    (hwithin : Within nil ops s xs) :
    match specAll xs ops with
    | .ok (ys, outs) => ∃ t, runAll nil s ops = .ok (t, outs) ∧ t.Holds ys
    | .error fault => runAll nil s ops = .error fault := by
  induction ops generalizing s xs with
  | nil => exact ⟨s, rfl, h⟩
  | cons op ops ih =>
      obtain ⟨hasks, hrest⟩ := hwithin
      have hstep := run_spec nil h op hasks hlen
      simp only [specAll, runAll]
      cases hspec : op.spec xs with
      | error fault =>
          rw [hspec] at hstep
          simp only [bind, Except.bind]
          rw [hstep]
      | ok result =>
          obtain ⟨ys, out⟩ := result
          rw [hspec] at hstep
          obtain ⟨hafter, hrest⟩ := hrest ys out hspec
          obtain ⟨t, ht, hholds⟩ := hstep hafter
          have hrun := ih hholds hafter (hrest t ht)
          simp only [bind, Except.bind, ht]
          cases hall : specAll ys ops with
          | error fault =>
              rw [hall] at hrun
              simp only [hrun]
          | ok result =>
              obtain ⟨zs, outs⟩ := result
              rw [hall] at hrun
              obtain ⟨u, hu, hholds⟩ := hrun
              simp only [hu]
              exact ⟨u, rfl, hholds⟩

/-- In a run from the empty list whose steps all ask for fewer than `2^32` slots and leave fewer
elements, the storage is the sequence after every step, with no more elements than its capacity,
and nothing undefined is done. -/
theorem storage_sequence (nil : V) (ops : List (ListOp V)) (hwithin : Within nil ops (new nil) []) :
    match specAll [] ops with
    | .ok (xs, outs) => ∃ s, runAll nil (new nil) ops = .ok (s, outs) ∧
        s.toVec 0 s.len = .ok xs ∧ s.len ≤ s.effectiveCap
    | .error fault => runAll nil (new nil) ops = .error fault := by
  have hrun := runAll_spec nil ops (holds_new nil) (Nat.two_pow_pos 32) hwithin
  cases hall : specAll ([] : List V) ops with
  | error fault => rwa [hall] at hrun
  | ok result =>
      rw [hall] at hrun
      obtain ⟨s, hs, hholds⟩ := hrun
      exact ⟨s, hs, hholds.toVec_all, hholds.len ▸ hholds.le⟩

theorem storage_grown : ∃ s, runAll 0 (new 0) [.push 1, .push 2, .extendSelf, .remove 1] =
      .ok (s, [[], [], [], [2]]) ∧ s.toVec 0 s.len = .ok [1, 1, 2] ∧ s.len ≤ s.effectiveCap := by
  refine storage_sequence 0 [.push 1, .push 2, .extendSelf, .remove 1] ?_
  refine ⟨by decide, ?_⟩
  rintro _ _ ⟨⟩
  refine ⟨by decide, ?_⟩
  rintro _ ⟨⟩
  refine ⟨by decide, ?_⟩
  rintro _ _ ⟨⟩
  refine ⟨by decide, ?_⟩
  rintro _ ⟨⟩
  refine ⟨by decide, ?_⟩
  rintro _ _ ⟨⟩
  refine ⟨by decide, ?_⟩
  rintro _ ⟨⟩
  refine ⟨by decide, ?_⟩
  rintro _ _ ⟨⟩
  exact ⟨by decide, fun _ _ => trivial⟩

/-- Every step of a run leaves fewer than `2^32` elements. -/
def Short : List (ListOp V) → List V → Prop
  | [], _ => True
  | op :: ops, xs => ∀ ys out, op.spec xs = .ok (ys, out) → ys.length < 2 ^ 32 ∧ Short ops ys

/-- A list made full, and one element more. -/
def fullAndOne (n : Nat) (v : V) : List (ListOp V) := [.repeatSlice [v] n, .push v]

theorem short_fullAndOne {n : Nat} (hn : n + 1 < 2 ^ 32) (v : V) : Short (fullAndOne n v) [] := by
  intro ys out hys
  have hfull : ys = List.replicate n v := by
    rw [spec, List.flatten_replicate_singleton] at hys
    exact (Prod.mk.inj (Except.ok.inj hys)).1.symm
  have hcount : ys.length = n := hfull ▸ List.length_replicate
  refine ⟨by omega, ?_⟩
  intro zs out hzs
  have hmore : zs = ys ++ [v] := by
    rw [spec] at hzs
    exact (Prod.mk.inj (Except.ok.inj hzs)).1.symm
  refine ⟨?_, trivial⟩
  rw [hmore, List.length_append, hcount]
  exact hn

theorem runAll_fullAndOne {n : Nat} (hn : n = 2 ^ 31) (nil v : V) :
    ∃ s, runAll nil (new nil) (fullAndOne n v) = .ok (s, [[], []]) ∧
      s.len = n + 1 ∧ s.effectiveCap = 0 := by
  obtain ⟨t, ht, hholds, hcap⟩ := effectiveCap_repeatSlice nil v (n := n)
    (by unfold inlineCap; omega) (by omega)
  obtain ⟨u, hu, hlen, hnone⟩ := hholds.push_wraps v (List.length_replicate.trans hcap.symm)
    (hcap.trans hn)
  rw [List.length_replicate] at hlen
  have hdrop : (new nil).drop = .ok () := rfl
  have hpush : (ListOp.push v).run nil t = .ok (u, []) := by rw [run, hu]; rfl
  have hrepeat : (ListOp.repeatSlice [v] n).run nil (new nil) = .ok (t, []) := by
    simp only [run, ht, hdrop, bind, Except.bind]
  refine ⟨u, ?_, hlen, hnone⟩
  simp only [fullAndOne, runAll, hrepeat, hpush, bind, Except.bind]

theorem storage_wraps : ¬ ∀ ops : List (ListOp Nat), Short ops [] →
    match specAll [] ops with
    | .ok (xs, outs) => ∃ s, runAll 0 (new 0) ops = .ok (s, outs) ∧
        s.toVec 0 s.len = .ok xs ∧ s.len ≤ s.effectiveCap
    | .error fault => runAll 0 (new 0) ops = .error fault := by
  intro hall
  obtain ⟨n, hn⟩ : ∃ n, n = 2 ^ 31 := ⟨2 ^ 31, rfl⟩
  have h := hall (fullAndOne n 7) (short_fullAndOne (by omega) 7)
  obtain ⟨s, hs, hlen, hcap⟩ := runAll_fullAndOne hn 0 7
  cases hspec : specAll [] (fullAndOne n 7) with
  | error fault =>
      rw [hspec, hs] at h
      exact nomatch h
  | ok result =>
      rw [hspec] at h
      obtain ⟨t, ht, -, hle⟩ := h
      rw [hs] at ht
      obtain ⟨rfl, -⟩ := Prod.mk.inj (Except.ok.inj ht)
      rw [hlen, hcap] at hle
      exact absurd hle (by omega)

end ListOp

end Zuri.Vm
