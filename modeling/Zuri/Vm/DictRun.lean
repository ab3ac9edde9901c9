import Zuri.Vm.Dict
import Mathlib.Logic.Equiv.Defs

/-!
Runs over a heap of dictionaries: literals, the builtins that change a dictionary or make a
new one, and what the rest of the program and the collector do to the objects around them.
A run is defined over any storage of dictionaries. With the storage the heap has, it is
compared with the same run over maps in the order of insertion.
-/

namespace Zuri.Vm

/-- `δ` is what a dictionary is stored as. -/
inductive Obj (δ : Type) where
  | free
  | str (text : List Char)
  | bytes (content : List UInt8)
  | bigint (n : Int)
  | list (items : List Value)
  | dict (storage : δ)
  | range (lower upper : F64)
  | module
  | moduleBinding (module : Nat)
  | other (kind : Nat)

namespace Obj

variable {δ γ : Type}

def text : Obj δ → Option (List Char)
  | .str text => some text
  | _ => none

def map (f : δ → γ) : Obj δ → Obj γ
  | .free => .free
  | .str text => .str text
  | .bytes content => .bytes content
  | .bigint n => .bigint n
  | .list items => .list items
  | .dict s => .dict (f s)
  | .range lower upper => .range lower upper
  | .module => .module
  | .moduleBinding m => .moduleBinding m
  | .other kind => .other kind

end Obj

def Value.moved (ρ : Nat → Nat) : Value → Value
  | .obj a => .obj (ρ a)
  | v => v

/-- Addresses from `next` on have not been handed out. -/
structure Heap (δ : Type) where
  memory : Nat → Obj δ
  next : Nat

/-- What the heap asks of the storage of a dictionary. -/
structure Storage (δ : Type) where
  entries : δ → List (Value × Value)
  new : δ
  /-- A dictionary of pairs that may repeat a key. -/
  fromPairs : Texts → List (Value × Value) → δ
  /-- A dictionary of the entries of another one. -/
  fromEntries : Texts → List (Value × Value) → δ
  set : Texts → δ → Value → Value → δ
  remove : (Nat → Obj δ) → Nat → δ → Value → Option δ
  /-- The storage after its keys and values have moved, with the texts where they are now. -/
  moved : Texts → (Nat → Nat) → δ → δ

namespace Heap

variable {δ : Type}

def start : Heap δ := ⟨fun _ => .free, 0⟩

def texts (h : Heap δ) : Texts := fun a => (h.memory a).text

def dict (h : Heap δ) (d : Nat) : Option δ :=
  match h.memory d with
  | .dict s => some s
  | _ => none

def put (h : Heap δ) (a : Nat) (o : Obj δ) : Heap δ :=
  { h with memory := fun x => if x = a then o else h.memory x }

def alloc (h : Heap δ) (o : Obj δ) : Heap δ :=
  { h.put h.next o with next := h.next + 1 }

def view {γ : Type} (f : δ → γ) (h : Heap δ) : Heap γ := ⟨fun a => (h.memory a).map f, h.next⟩

end Heap

section Builtins

variable {δ α : Type}

/-- One after the other, in order. -/
def cloneEach (clone : Heap δ → α → Option (Heap δ × α)) (h : Heap δ) :
    List α → Option (Heap δ × List α)
  | [] => some (h, [])
  | x :: xs =>
      (clone h x).bind fun r => (cloneEach clone r.1 xs).map fun q => (q.1, r.2 :: q.2)

def clonePair (clone : Heap δ → Value → Option (Heap δ × Value)) (h : Heap δ)
    (e : Value × Value) : Option (Heap δ × (Value × Value)) :=
  (clone h e.1).bind fun r => (clone r.1 e.2).map fun q => (q.1, (r.2, q.2))

/-- A copy of a list or a dictionary all the way down; every other value is itself. -/
def deepClone (st : Storage δ) : Nat → Heap δ → Value → Option (Heap δ × Value)
  | 0, _, _ => none
  | fuel + 1, h, .obj a =>
      match h.memory a with
      | .list items =>
          (cloneEach (deepClone st fuel) h items).map fun r =>
            (r.1.alloc (.list r.2), .obj r.1.next)
      | .dict s =>
          (cloneEach (clonePair (deepClone st fuel)) h (st.entries s)).map fun r =>
            (r.1.alloc (.dict (st.fromEntries r.1.texts r.2)), .obj r.1.next)
      | _ => some (h, .obj a)
  | _ + 1, h, v => some (h, v)

inductive Op where
  | literal (pairs : List (Value × Value))
  | set (d : Nat) (key value : Value)
  | remove (d : Nat) (key : Value) (fuel : Nat)
  | extend (d other : Nat)
  | compact (d : Nat)
  | clone (d : Nat) (fuel : Nat)
  | clear (d : Nat)
  /-- The rest of the program allocates an object that is no dictionary. -/
  | alloc (o : Obj Empty)
  /-- The rest of the program changes an object, or an object is swept. -/
  | store (a : Nat) (o : Obj Empty)
  /-- A collection moves every object and frees the addresses from `next` on. -/
  | moved (ρ : Equiv.Perm Nat) (next : Nat)

def Obj.moved (st : Storage δ) (t : Texts) (ρ : Nat → Nat) : Obj δ → Obj δ
  | .list items => .list (items.map (Value.moved ρ))
  | .dict s => .dict (st.moved t ρ s)
  | .moduleBinding m => .moduleBinding (ρ m)
  | o => o

def Heap.step (st : Storage δ) (h : Heap δ) : Op → Option (Heap δ)
  | .literal pairs => some (h.alloc (.dict (st.fromPairs h.texts pairs)))
  | .set d key value => (h.dict d).map fun s => h.put d (.dict (st.set h.texts s key value))
  | .remove d key fuel =>
      (h.dict d).bind fun s => (st.remove h.memory fuel s key).map fun s => h.put d (.dict s)
  | .extend d other =>
      (h.dict d).bind fun s => (h.dict other).map fun o =>
        h.put d (.dict ((st.entries o).foldl (fun s e => st.set h.texts s e.1 e.2) s))
  | .compact d =>
      (h.dict d).map fun s =>
        h.alloc (.dict (st.fromEntries h.texts ((st.entries s).filter fun e => e.2 ≠ .nil)))
  | .clone d fuel =>
      (h.dict d).bind fun s =>
        (cloneEach (clonePair (deepClone st fuel)) h (st.entries s)).map fun r =>
          r.1.alloc (.dict (st.fromEntries r.1.texts r.2))
  | .clear d => (h.dict d).map fun _ => h.put d (.dict st.new)
  | .alloc o => some (h.alloc (o.map Empty.elim))
  | .store a o => some (h.put a (o.map Empty.elim))
  | .moved ρ next =>
      some ⟨fun a => (h.memory (ρ.symm a)).moved st (fun a => h.texts (ρ.symm a)) ρ, next⟩

end Builtins

section Equality

variable (fx : HashInput → Nat) (m : Nat → Obj DictStorage)

def allM {α : Type} (p : α → Option Bool) : List α → Option Bool
  | [] => some true
  | x :: xs => (p x).bind fun holds => if holds then allM p xs else some false

/-- The module an address is of, or of the import it is a binding of. -/
def moduleOf (a : Nat) : Option Nat :=
  match m a with
  | .module => some a
  | .moduleBinding target => some target
  | _ => none

/-- Equality as `==` has it: by content where there is content. -/
def equals : Nat → Value → Value → Option Bool
  | 0, _, _ => none
  | _ + 1, .number x, .number y => some (x.eq y)
  | fuel + 1, .obj a, .obj b =>
      match moduleOf m a, moduleOf m b with
      | some x, some y => some (x == y)
      | _, _ =>
          match m a, m b with
          | .str x, .str y => some (x == y)
          | .bigint x, .bigint y => some (x == y)
          | .bytes x, .bytes y => some (x == y)
          | .list xs, .list ys =>
              if xs.length = ys.length then allM (fun p => equals fuel p.1 p.2) (xs.zip ys)
              else some false
          | .dict s, .dict o =>
              if s.entries.length = o.entries.length then
                allM (fun e =>
                  match o.get fx (fun a => (m a).text) e.1 with
                  | some v => equals fuel e.2 v
                  | none => some false) s.entries
              else some false
          | .range l u, .range l' u' => some (l.eq l' && u.eq u')
          | .other x, .other y => some (x == y && a == b)
          | _, _ => some false
  | _ + 1, a, b => some (a == b)

/-- The entries whose key `==` does not find equal to the one removed. -/
def remaining (fuel : Nat) (key : Value) : List (Value × Value) → Option (List (Value × Value))
  | [] => some []
  | e :: es =>
      (equals fx m fuel e.1 key).bind fun same =>
        (remaining fuel key es).map fun kept => if same then kept else e :: kept

def DictStorage.remove (fuel : Nat) (s : DictStorage) (key : Value) : Option DictStorage :=
  let t : Texts := fun a => (m a).text
  if (s.get fx t key).isSome then
    (remaining fx m fuel key s.entries).map fun kept => .fromPairs fx t kept
  else some s

/-- A dictionary is reindexed when one of its keys has moved. -/
def DictStorage.moved (t : Texts) (ρ : Nat → Nat) (s : DictStorage) : DictStorage :=
  let entries := s.entries.map fun e => (e.1.moved ρ, e.2.moved ρ)
  if s.entries.any fun e => e.1.moved ρ ≠ e.1 then DictStorage.reindex fx t ⟨entries, s.index⟩
  else ⟨entries, s.index⟩

end Equality

/-- Dictionaries as the heap stores them. -/
def stored (fx : HashInput → Nat) : Storage DictStorage where
  entries := DictStorage.entries
  new := .new
  fromPairs := DictStorage.fromPairs fx
  fromEntries := DictStorage.fromPairs fx
  set := DictStorage.set fx
  remove := DictStorage.remove fx
  moved := DictStorage.moved fx

/-- Dictionaries as maps in the order of insertion, under one notion of two keys being the
same. -/
def ordered : Storage (List (Value × Value)) where
  entries := id
  new := []
  fromPairs t := OrderedMap.putAll (sameKey t) []
  fromEntries _ := id
  set t := OrderedMap.put (sameKey t)
  remove m _ entries key := some (OrderedMap.remove (sameKey fun a => (m a).text) entries key)
  moved _ ρ entries := entries.map fun e => (e.1.moved ρ, e.2.moved ρ)

namespace Heap

variable {δ : Type} (h : Heap δ)

def Live (v : Value) : Prop := ∀ a, v = .obj a → a < h.next

variable (h : Heap DictStorage)

/-- A key of some dictionary. -/
def Named (a : Nat) : Prop :=
  ∃ d s, h.memory d = .dict s ∧ ∃ e ∈ s.entries, e.1 = .obj a

/-- What the rest of the program and the collector promise: values are of objects there are,
the text of a string a dictionary has for a key stays, and such a key is not swept. -/
def Allowed : Op → Prop
  | .literal pairs => ∀ p ∈ pairs, h.Live p.1
  | .set _ key _ => h.Live key
  | .store a o => o.text = h.texts a ∨ ¬h.Named a
  | .moved ρ next => ∀ a, h.Named a → ρ a < next
  | _ => True

/-- No key put in is nil or NaN, and where a key that is there is removed, `==` tells the
keys apart just as lookup does. -/
def Meets (fx : HashInput → Nat) : Op → Prop
  | .literal pairs => ∀ p ∈ pairs, Steady p.1
  | .set _ key _ => Steady key
  | .remove d key fuel => ∀ s, h.dict d = some s → (s.get fx h.texts key).isSome = true →
      ∀ e ∈ s.entries, equals fx h.memory fuel e.1 key = some (sameKey h.texts e.1 key)
  | _ => True

end Heap

/-- Runs from an empty heap whose steps all meet the condition. -/
inductive Reaches (fx : HashInput → Nat) : List Op → Heap DictStorage → Prop
  | start : Reaches fx [] .start
  | step {log : List Op} {h next : Heap DictStorage} {op : Op} :
      Reaches fx log h → h.Allowed op → h.Meets fx op → h.step (stored fx) op = some next →
        Reaches fx (log ++ [op]) next

def Heap.run {δ : Type} (st : Storage δ) (h : Heap δ) : List Op → Option (Heap δ)
  | [] => some h
  | op :: ops => (h.step st op).bind fun next => next.run st ops

/-- Every lookup finds the entry whose key is the same, keys are distinct, keys that are the
same hash equally, and stepping from nil goes through every entry in order and ends. -/
structure DictsExact (fx : HashInput → Nat) (h : Heap DictStorage) : Prop where
  indexOf : ∀ d s, h.dict d = some s → ∀ key,
    s.indexOf fx h.texts key = OrderedMap.position (sameKey h.texts) s.entries key
  get : ∀ d s, h.dict d = some s → ∀ key,
    s.get fx h.texts key = OrderedMap.get (sameKey h.texts) s.entries key
  distinct : ∀ d s, h.dict d = some s → OrderedMap.Distinct (sameKey h.texts) s.entries
  hashed : ∀ a b, sameKey h.texts a b = true → hashInput h.texts a = hashInput h.texts b
  stepped : ∀ d s, h.dict d = some s →
    s.stepped fx h.texts (s.entries.length + 1) .nil = some s.entries

namespace Heap

section View

variable {δ γ : Type} {f : δ → γ} {h : Heap δ} {o : Obj δ} {a d : Nat} {s s' : δ}

theorem text_map (f : δ → γ) (o : Obj δ) : (o.map f).text = o.text := by
  cases o <;> rfl

theorem view_texts : (h.view f).texts = h.texts := by
  funext a
  exact text_map f (h.memory a)

theorem view_dict : (h.view f).dict d = (h.dict d).map f := by
  simp only [dict, view]
  cases h.memory d <;> rfl

theorem view_put : (h.put a o).view f = (h.view f).put a (o.map f) := by
  simp only [view, put, mk.injEq, and_true]
  funext x
  split <;> rfl

theorem view_alloc : (h.alloc o).view f = (h.view f).alloc (o.map f) :=
  congrArg (fun k => { k with next := h.next + 1 }) (view_put (f := f) (a := h.next))

theorem dict_some : h.dict d = some s ↔ h.memory d = .dict s := by
  unfold dict
  cases h.memory d <;> simp

theorem put_dict_texts (s' : δ) (hd : h.dict d = some s) : (h.put d (.dict s')).texts = h.texts := by
  funext x
  simp only [texts, put]
  split
  · rename_i hx
    subst hx
    rw [dict_some.mp hd]
    rfl
  · rfl

theorem alloc_texts (ha : a < h.next) : (h.alloc o).texts a = h.texts a := by
  simp only [texts, alloc, put]
  rw [if_neg (by omega)]

end View

end Heap

section Keeping

open OrderedMap

variable {fx : HashInput → Nat} {h h' : Heap DictStorage} {s s' : DictStorage} {a d : Nat}
  {key value : Value}

/-- Keys that can be found again, of objects there are. -/
def KeysKept (h : Heap DictStorage) (entries : List (Value × Value)) : Prop :=
  ∀ e ∈ entries, Steady e.1 ∧ h.Live e.1

structure Kept (fx : HashInput → Nat) (h : Heap DictStorage) : Prop where
  exact : ∀ d s, h.memory d = .dict s → s.Exact fx h.texts
  keys : ∀ d s, h.memory d = .dict s → KeysKept h s.entries

namespace Kept

theorem dictsExact (h' : Kept fx h) : DictsExact fx h :=
  ⟨fun d s hd => (h'.exact d s (Heap.dict_some.mp hd)).indexOf,
    fun d s hd => (h'.exact d s (Heap.dict_some.mp hd)).get,
    fun d s hd => (h'.exact d s (Heap.dict_some.mp hd)).distinct,
    fun _ _ => hashInput_of_sameKey,
    fun d s hd => (h'.exact d s (Heap.dict_some.mp hd)).stepped
      fun e he => (h'.keys d s (Heap.dict_some.mp hd) e he).1⟩

theorem start : Kept fx Heap.start := by
  constructor
  · intro d s hd
    cases hd
  · intro d s hd
    cases hd

theorem named_lt (hk : Kept fx h) (ha : h.Named a) : a < h.next := by
  obtain ⟨d, s, hd, e, he, hea⟩ := ha
  exact (hk.keys d s hd e he).2 a hea

/-- A heap whose dictionaries are old ones, or new ones that are as they should be. -/
theorem of (hk : Kept fx h) (hnext : h.next ≤ h'.next)
    (htexts : ∀ a, h.Named a → h'.texts a = h.texts a)
    (hdicts : ∀ d s, h'.memory d = .dict s →
      h.memory d = .dict s ∨ s.Exact fx h'.texts ∧ KeysKept h' s.entries) : Kept fx h' := by
  constructor
  · intro d s hd
    rcases hdicts d s hd with hold | hnew
    · exact (hk.exact d s hold).retext fun e he x hx => htexts x ⟨d, s, hold, e, he, hx⟩
    · exact hnew.1
  · intro d s hd
    rcases hdicts d s hd with hold | hnew
    · intro e he
      obtain ⟨hsteady, hlive⟩ := hk.keys d s hold e he
      exact ⟨hsteady, fun x hx => Nat.lt_of_lt_of_le (hlive x hx) hnext⟩
    · exact hnew.2

theorem put (hk : Kept fx h) (hd : h.dict d = some s) (hexact : s'.Exact fx h.texts)
    (hkeys : KeysKept h s'.entries) : Kept fx (h.put d (.dict s')) := by
  have htexts := Heap.put_dict_texts s' hd
  refine hk.of (Nat.le_refl _) (fun a _ => by rw [htexts]) fun x o hx => ?_
  simp only [Heap.put] at hx
  split at hx
  · cases hx
    exact .inr ⟨by rw [htexts]; exact hexact, hkeys⟩
  · exact .inl hx

theorem alloc (hk : Kept fx h) (hexact : s.Exact fx h.texts) (hkeys : KeysKept h s.entries) :
    Kept fx (h.alloc (.dict s)) := by
  refine hk.of (Nat.le_succ _) (fun a ha => Heap.alloc_texts (hk.named_lt ha)) fun x o hx => ?_
  simp only [Heap.alloc, Heap.put] at hx
  split at hx
  · cases hx
    refine .inr ⟨hexact.retext fun e he a ha => Heap.alloc_texts ((hkeys e he).2 a ha), ?_⟩
    exact fun e he => ⟨(hkeys e he).1, fun a ha => Nat.lt_succ_of_lt ((hkeys e he).2 a ha)⟩
  · exact .inl hx

theorem map_ne_dict {o : Obj Empty} : (o.map Empty.elim : Obj DictStorage) ≠ .dict s := by
  cases o with
  | dict s => exact s.elim
  | _ => exact nofun

theorem allocPlain (hk : Kept fx h) {o : Obj DictStorage} (ho : ∀ s, o ≠ .dict s) :
    Kept fx (h.alloc o) := by
  refine hk.of (Nat.le_succ _) (fun a ha => Heap.alloc_texts (hk.named_lt ha)) fun x s hx => ?_
  simp only [Heap.alloc, Heap.put] at hx
  split at hx
  · exact absurd hx (ho s)
  · exact .inl hx

theorem store (hk : Kept fx h) {o : Obj Empty} (ho : o.text = h.texts a ∨ ¬h.Named a) :
    Kept fx (h.put a (o.map Empty.elim)) := by
  refine hk.of (Nat.le_refl _) (fun x hx => ?_) fun x s hx => ?_
  · simp only [Heap.texts, Heap.put]
    split
    · rename_i heq
      subst heq
      rcases ho with ho | ho
      · rw [Heap.text_map]
        exact ho
      · exact absurd hx ho
    · rfl
  · simp only [Heap.put] at hx
    split at hx
    · exact absurd hx map_ne_dict
    · exact .inl hx

end Kept

end Keeping

end Zuri.Vm
