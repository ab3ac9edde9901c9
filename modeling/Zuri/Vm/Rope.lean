import Zuri.Vm.Str

/-!
Strings built by `+`. A rope is an older string, its head, with the first octets of a tail
after it; tails are shared between ropes and only ever grow. A rope is assembled into a flat
string when it is first read. A string that another one has for its head is not collected.
-/

namespace Zuri.Vm

open Utf8

/-- Lengths are kept in 32 bits. -/
structure Rope where
  head : Nat
  tail : Nat
  tailLen : Nat
  len : Nat
  chars : Nat

inductive ObjStr where
  | flat (s : FlatStr)
  | rope (r : Rope)

def u32 (n : Nat) : Nat := n % 2 ^ 32

/-- The strings of a heap, in the order in which they were allocated, and the tails. -/
structure Strings where
  strs : List (Option ObjStr)
  tails : List (List Char)

namespace Strings

def get (h : Strings) (id : Nat) : Option ObjStr := h.strs[id]?.join

def put (h : Strings) (id : Nat) (o : Option ObjStr) : Strings :=
  { h with strs := h.strs.set id o }

def alloc (h : Strings) (o : ObjStr) : Nat × Strings :=
  (h.strs.length, { h with strs := h.strs ++ [some o] })

def tailText (h : Strings) (r : Rope) : Option (List Char) := do
  let tail ← h.tails[r.tail]?
  strSlice tail 0 r.tailLen

/-- Whether nothing has appended to the tail past this rope's slice. -/
def ownsTailEnd (h : Strings) (r : Rope) : Bool :=
  h.tails[r.tail]?.any fun tail => byteLen tail == r.tailLen

/-- The walk down the heads: the flat text at the end of it and the pieces found on the way. -/
def pieces (h : Strings) : Nat → Nat → List (List Char) → Option (List Char × List (List Char))
  | 0, _, _ => none
  | n + 1, head, found => do
      match ← h.get head with
      | .flat s => some (s.text, found)
      | .rope r =>
          let piece ← h.tailText r
          pieces h n r.head (found ++ [piece])

def assemble (h : Strings) (id : Nat) (r : Rope) : Option (List Char × Strings) := do
  let piece ← h.tailText r
  let walked ← h.pieces h.strs.length r.head [piece]
  let joined := walked.1 ++ walked.2.reverse.flatten
  return (joined, h.put id (some (.flat (.flat joined))))

/-- The contents of a string, assembling a rope first. -/
def text (h : Strings) (id : Nat) : Option (List Char × Strings) := do
  match ← h.get id with
  | .flat s => some (s.text, h)
  | .rope r => h.assemble id r

/-- A query of a flat string, or of a rope once it is assembled. -/
def query {α : Type} (h : Strings) (id : Nat) (m : ReadM α) : Option (α × Strings) := do
  let read ← h.text id
  match ← read.2.get id with
  | .flat s =>
      let answer ← m s
      return (answer.1, read.2.put id (some (.flat answer.2)))
  | .rope _ => none

/-- The codepoint count. A rope keeps its own. -/
def charLen (h : Strings) (id : Nat) : Option (Nat × Strings) := do
  match ← h.get id with
  | .rope r => some (r.chars, h)
  | .flat _ => h.query id Vm.charLen

def byteLenOf : ObjStr → Nat
  | .flat s => byteLen s.text
  | .rope r => r.len

/-- Whether appending to a string builds a rope. -/
def appendable : ObjStr → Bool
  | .flat s => s.form == .strConcat
  | .rope _ => true

/-- A rope whose head is the string appended to, with a tail of its own. -/
def freshRope (h : Strings) (a total count : Nat) (piece : List Char) :
    Option (Nat × Strings) := do
  let (before, h) ← h.charLen a
  return Strings.alloc { h with tails := h.tails ++ [piece] } <| .rope
    { head := a, tail := h.tails.length, tailLen := u32 (byteLen piece), len := u32 total,
      chars := u32 (u32 before + count) }

/-- A rope with one more piece, which goes into the tail of the string appended to where that
string still ends it. -/
def append (h : Strings) (a b total : Nat) (piece : List Char) : Option (Nat × Strings) := do
  let (count, h) ← h.charLen b
  match ← h.get a with
  | .flat _ => h.freshRope a total (u32 count) piece
  | .rope prior =>
      if h.ownsTailEnd prior then
        return Strings.alloc { h with tails := h.tails.modify prior.tail (· ++ piece) } <| .rope
          { head := prior.head, tail := prior.tail,
            tailLen := u32 (prior.tailLen + u32 (byteLen piece)), len := u32 total,
            chars := u32 (prior.chars + u32 count) }
      else h.freshRope a total (u32 count) piece

def concatStrings (h : Strings) (a b : Nat) : Option (Nat × Strings) := do
  let (piece, h) ← h.text b
  if piece.isEmpty then return (a, h)
  let left ← h.get a
  let total := byteLenOf left + byteLen piece
  if 2 ^ 32 - 1 < total ∨ !appendable left then
    let (before, h) ← h.text a
    if before.isEmpty then return (b, h)
    return h.alloc (.flat (.concat (before ++ piece)))
  else h.append a b total piece

/-- A string that no rope has for its head may be collected. -/
def drop (h : Strings) (id : Nat) : Strings :=
  if h.strs.any fun o => match o with
    | some (.rope r) => r.head == id
    | _ => false
  then h else h.put id none

/-- What a string means: a flat one its text, a rope what its head means and as much of its
tail as it has taken. Its lengths are those of that text. -/
inductive Denotes (h : Strings) : Nat → List Char → Prop where
  | flat {id : Nat} {s : FlatStr} : h.get id = some (.flat s) → Denotes h id s.text
  | rope {id : Nat} {r : Rope} {before piece after : List Char} :
      h.get id = some (.rope r) → r.head < id → Denotes h r.head before →
      h.tails[r.tail]? = some (piece ++ after) → byteLen piece = r.tailLen →
      r.len = byteLen (before ++ piece) → byteLen (before ++ piece) < 2 ^ 32 →
      r.chars = (before ++ piece).length → Denotes h id (before ++ piece)

/-- A heap may go on to another: what strings meant there they mean here. -/
structure Evolves (h k : Strings) : Prop where
  length : k.strs.length = h.strs.length
  keeps : ∀ id t, h.Denotes id t → k.Denotes id t
  live : ∀ id, (k.get id).isSome → (h.get id).isSome

theorem Evolves.refl (h : Strings) : Evolves h h := ⟨rfl, fun _ _ hd => hd, fun _ hl => hl⟩

theorem Evolves.trans {h k l : Strings} (hk : Evolves h k) (kl : Evolves k l) : Evolves h l :=
  ⟨kl.length.trans hk.length, fun id t hd => kl.keeps id t (hk.keeps id t hd),
    fun id hl => hk.live id (kl.live id hl)⟩

variable {h k : Strings} {id other : Nat} {t u : List Char}

theorem get_lt {o : ObjStr} (hget : h.get id = some o) : id < h.strs.length := by
  by_contra hlt
  rw [get, List.getElem?_eq_none (by omega)] at hget
  cases hget

theorem get_put (o : Option ObjStr) (hlt : id < h.strs.length) :
    (h.put id o).get other = if other = id then o else h.get other := by
  simp only [get, put, List.getElem?_set]
  by_cases heq : other = id
  · subst heq
    simp [hlt]
  · rw [if_neg (Ne.symm heq), if_neg heq]

namespace Denotes

theorem lt (hd : h.Denotes id t) : id < h.strs.length := by
  cases hd with
  | flat hget => exact get_lt hget
  | rope hget => exact get_lt hget

theorem isSome (hd : h.Denotes id t) : (h.get id).isSome := by
  cases hd with
  | flat hget => rw [hget]; rfl
  | rope hget => rw [hget]; rfl

theorem unique (hd : h.Denotes id t) (hu : h.Denotes id u) : t = u := by
  induction hd generalizing u with
  | flat hget =>
      cases hu with
      | flat hget' => rw [hget] at hget'; cases hget'; rfl
      | rope hget' => rw [hget] at hget'; cases hget'
  | rope hget _ _ htail hlen _ _ _ ih =>
      cases hu with
      | flat hget' => rw [hget] at hget'; cases hget'
      | rope hget' _ hd' htail' hlen' _ _ _ =>
          rw [hget] at hget'
          cases hget'
          rw [htail, Option.some_inj] at htail'
          have hsplit := splitAt?_append _ _ ▸ congrArg (splitAt? · (byteLen _)) htail'
          rw [hlen, ← hlen', splitAt?_append, Option.some_inj] at hsplit
          rw [ih hd', (Prod.mk.inj hsplit).1]

/-- Strings go on meaning the same while they stay and tails only grow. -/
theorem mono (hget : ∀ id o, h.get id = some o → k.get id = some o)
    (htails : ∀ (i : Nat) (tail : List Char), h.tails[i]? = some tail →
      ∃ more, k.tails[i]? = some (tail ++ more))
    (hd : h.Denotes id t) : k.Denotes id t := by
  induction hd with
  | flat hs => exact .flat (hget _ _ hs)
  | rope hr hhead _ htail hlen hbytes hfits hchars ih =>
      obtain ⟨more, hmore⟩ := htails _ _ htail
      rw [List.append_assoc] at hmore
      exact .rope (hget _ _ hr) hhead ih hmore hlen hbytes hfits hchars

/-- A string may be written out flat. -/
theorem putFlat {s : FlatStr} (hs : h.Denotes id s.text) (hd : h.Denotes other u) :
    (h.put id (some (.flat s))).Denotes other u := by
  have hself : (h.put id (some (.flat s))).Denotes id s.text :=
    .flat (by rw [get_put _ hs.lt, if_pos rfl])
  induction hd with
  | @flat other s' hget =>
      by_cases heq : other = id
      · subst heq
        rwa [hs.unique (.flat hget)] at hself
      · exact .flat (by rw [get_put _ hs.lt, if_neg heq]; exact hget)
  | @rope other r before piece after hget hhead hbefore htail hlen hbytes hfits hchars ih =>
      by_cases heq : other = id
      · subst heq
        rwa [hs.unique (.rope hget hhead hbefore htail hlen hbytes hfits hchars)] at hself
      · exact .rope (by rw [get_put _ hs.lt, if_neg heq]; exact hget) hhead ih htail hlen
          hbytes hfits hchars

theorem tailText {r : Rope} {piece after : List Char}
    (htail : h.tails[r.tail]? = some (piece ++ after)) (hlen : byteLen piece = r.tailLen) :
    h.tailText r = some piece := by
  simp only [Strings.tailText, htail, Option.bind_eq_bind, Option.bind_some, strSlice,
    Nat.not_lt_zero, if_false, splitAt?, Nat.sub_zero, ← hlen, splitAt?_append]
  rfl

/-- The walk down the heads comes to an end, and what it finds is what the string means. -/
theorem pieces (hd : h.Denotes id t) {n : Nat} (hn : id < n) (found : List (List Char)) :
    ∃ base more, h.pieces n id found = some (base, found ++ more) ∧
      base ++ more.reverse.flatten = t := by
  induction hd generalizing n found with
  | flat hget =>
      obtain ⟨n, rfl⟩ : ∃ m, n = m + 1 := ⟨n - 1, by omega⟩
      refine ⟨_, [], ?_, List.append_nil _⟩
      simp [Strings.pieces, hget]
  | @rope id r before piece after hget hhead hbefore htail hlen _ _ _ ih =>
      obtain ⟨n, rfl⟩ : ∃ m, n = m + 1 := ⟨n - 1, by omega⟩
      obtain ⟨base, more, hpieces, hjoined⟩ := ih (by omega : r.head < n) (found ++ [piece])
      refine ⟨base, piece :: more, ?_, ?_⟩
      · simp only [Strings.pieces, hget, tailText htail hlen, Option.bind_eq_bind,
          Option.bind_some, hpieces, List.append_assoc, List.singleton_append]
      · rw [List.reverse_cons, List.flatten_append, ← List.append_assoc, hjoined]
        simp

end Denotes

theorem Evolves.putFlat {s : FlatStr} (hs : h.Denotes id s.text) :
    Evolves h (h.put id (some (.flat s))) := by
  refine ⟨List.length_set, fun _ _ hd => Denotes.putFlat hs hd, fun other hl => ?_⟩
  rw [get_put _ hs.lt] at hl
  by_cases heq : other = id
  · exact heq ▸ hs.isSome
  · rwa [if_neg heq] at hl

theorem text_denotes (hd : h.Denotes id t) :
    ∃ k s, h.text id = some (t, k) ∧ Evolves h k ∧ k.get id = some (.flat s) ∧ s.text = t := by
  cases hd with
  | @flat _ s hget =>
      exact ⟨h, s, by simp [Strings.text, hget], .refl h, hget, rfl⟩
  | @rope _ r before piece after hget hhead hbefore htail hlen hbytes hfits hchars =>
      have hd := Denotes.rope hget hhead hbefore htail hlen hbytes hfits hchars
      have hlt : r.head < h.strs.length := Nat.lt_trans hhead hd.lt
      obtain ⟨base, more, hpieces, hjoined⟩ := hbefore.pieces hlt [piece]
      have hwhole : base ++ ([piece] ++ more).reverse.flatten = before ++ piece := by
        rw [← hjoined, List.reverse_append, List.flatten_append, List.append_assoc]
        simp
      refine ⟨h.put id (some (.flat (.flat (before ++ piece)))), .flat (before ++ piece), ?_,
        .putFlat (by exact hd), by rw [get_put _ hd.lt, if_pos rfl], rfl⟩
      simp only [Strings.text, hget, Option.bind_eq_bind, Option.bind_some, assemble,
        Denotes.tailText htail hlen, hpieces, hwhole]
      rfl

/-- A query that answers of any flat string with a text answers of any string that means it. -/
theorem query_denotes {α : Type} {m : ReadM α} {a : α} (hd : h.Denotes id t)
    (hm : ∀ s : FlatStr, s.text = t → Answers s m a) :
    ∃ k, h.query id m = some (a, k) ∧ Evolves h k := by
  obtain ⟨k, s, htext, hevolves, hget, hs⟩ := text_denotes hd
  obtain ⟨s', hrun, hs'⟩ := hm s hs
  have hflat : k.Denotes id s'.text := by
    rw [hs', hs]
    exact hevolves.keeps id t hd
  refine ⟨k.put id (some (.flat s')), ?_, hevolves.trans (.putFlat hflat)⟩
  simp only [query, htext, Option.bind_eq_bind, Option.bind_some, hget, hrun]
  rfl

theorem charLen_denotes (hd : h.Denotes id t) :
    ∃ k, h.charLen id = some (t.length, k) ∧ Evolves h k := by
  have hquery := query_denotes hd fun s hs => hs ▸ answers_charLen s
  cases hd with
  | flat hget =>
      obtain ⟨k, hk, hevolves⟩ := hquery
      exact ⟨k, by simp [charLen, hget, hk], hevolves⟩
  | rope hget _ _ _ _ _ _ hchars => exact ⟨h, by simp [charLen, hget, hchars], .refl h⟩

/-- One more string, which means what is said of it. -/
structure Adds (h k : Strings) (t : List Char) : Prop where
  length : k.strs.length = h.strs.length + 1
  denotes : k.Denotes h.strs.length t
  keeps : ∀ id t, h.Denotes id t → k.Denotes id t
  live : ∀ id, (k.get id).isSome → id = h.strs.length ∨ (h.get id).isSome

theorem Evolves.adds {l : Strings} (hk : Evolves h k) (kl : Adds k l t) : Adds h l t :=
  ⟨by rw [kl.length, hk.length], hk.length ▸ kl.denotes,
    fun id u hd => kl.keeps id u (hk.keeps id u hd),
    fun id hl => (kl.live id hl).imp (fun he => he.trans hk.length) (hk.live id)⟩

theorem get_snoc (h : Strings) (o : ObjStr) (tails : List (List Char)) (id : Nat) :
    get ⟨h.strs ++ [some o], tails⟩ id = if id = h.strs.length then some o else h.get id := by
  simp only [get]
  by_cases hlt : id < h.strs.length
  · rw [List.getElem?_append_left hlt, if_neg (by omega)]
  · rw [List.getElem?_append_right (by omega)]
    by_cases heq : id = h.strs.length
    · simp [heq]
    · rw [if_neg heq, List.getElem?_eq_none (by simp; omega), List.getElem?_eq_none (by omega)]

theorem Adds.snoc {o : ObjStr} {tails : List (List Char)}
    (hgrow : ∀ (i : Nat) (tail : List Char), h.tails[i]? = some tail →
      ∃ more, tails[i]? = some (tail ++ more))
    (hdenotes : (∀ id t, h.Denotes id t → Denotes ⟨h.strs ++ [some o], tails⟩ id t) →
      Denotes ⟨h.strs ++ [some o], tails⟩ h.strs.length t) :
    Adds h ⟨h.strs ++ [some o], tails⟩ t := by
  have hkeeps : ∀ id t, h.Denotes id t → Denotes ⟨h.strs ++ [some o], tails⟩ id t := by
    intro id t hd
    refine hd.mono (fun id o' hget => ?_) hgrow
    rw [get_snoc, if_neg (Nat.ne_of_lt (get_lt hget)), hget]
  refine ⟨by simp, hdenotes hkeeps, hkeeps, fun id hl => ?_⟩
  rw [get_snoc] at hl
  by_cases heq : id = h.strs.length
  · exact .inl heq
  · rw [if_neg heq] at hl
    exact .inr hl

theorem Adds.flat (h : Strings) (s : FlatStr) : Adds h (h.alloc (.flat s)).2 s.text :=
  .snoc (fun _ tail hi => ⟨[], by rw [hi, List.append_nil]⟩)
    fun _ => .flat (by rw [get_snoc, if_pos rfl])

theorem Adds.rope {r : Rope} {tails : List (List Char)} {before piece a : List Char}
    (hgrow : ∀ (i : Nat) (tail : List Char), h.tails[i]? = some tail →
      ∃ more, tails[i]? = some (tail ++ more))
    (hhead : h.Denotes r.head before) (htail : tails[r.tail]? = some (piece ++ a))
    (hlen : byteLen piece = r.tailLen) (hbytes : r.len = byteLen (before ++ piece))
    (hfits : byteLen (before ++ piece) < 2 ^ 32) (hchars : r.chars = (before ++ piece).length) :
    Adds h ⟨h.strs ++ [some (.rope r)], tails⟩ (before ++ piece) :=
  .snoc hgrow fun hkeeps =>
    .rope (by rw [get_snoc, if_pos rfl]) hhead.lt (hkeeps _ _ hhead) htail hlen hbytes hfits hchars

theorem u32_of_lt {n : Nat} (hn : n < 2 ^ 32) : u32 n = n := Nat.mod_eq_of_lt hn

theorem byteLenOf_denotes {o : ObjStr} (hd : h.Denotes id t) (hget : h.get id = some o) :
    byteLenOf o = byteLen t := by
  cases hd with
  | flat hs => rw [hs] at hget; cases hget; rfl
  | rope hr _ _ _ _ hbytes => rw [hr] at hget; cases hget; exact hbytes

theorem freshRope_adds {piece : List Char} (hd : h.Denotes id t)
    (hfits : byteLen t + byteLen piece < 2 ^ 32) :
    ∃ k, h.freshRope id (byteLen t + byteLen piece) piece.length piece =
      some (h.strs.length, k) ∧ Adds h k (t ++ piece) := by
  obtain ⟨k, hcount, hevolves⟩ := charLen_denotes hd
  have hlen := length_le_byteLen t
  have hpiece := length_le_byteLen piece
  refine ⟨⟨k.strs ++ [some (.rope ⟨id, k.tails.length, byteLen piece,
    byteLen t + byteLen piece, t.length + piece.length⟩)], k.tails ++ [piece]⟩, ?_, ?_⟩
  · simp only [freshRope, hcount, Option.bind_eq_bind, Option.bind_some, Strings.alloc,
      hevolves.length, u32_of_lt (by omega : byteLen piece < 2 ^ 32), u32_of_lt hfits,
      u32_of_lt (by omega : t.length < 2 ^ 32),
      u32_of_lt (by omega : t.length + piece.length < 2 ^ 32)]
    rfl
  · refine hevolves.adds (.rope (a := []) (fun i tail hi => ⟨[], ?_⟩)
      (hevolves.keeps id t hd) ?_ rfl ?_ ?_ ?_)
    · rw [List.append_nil, List.getElem?_append_left (List.getElem?_eq_some_iff.mp hi).1, hi]
    · simp
    · simp
    · rw [byteLen_append]
      exact hfits
    · simp

theorem append_adds {a b : Nat} {piece : List Char} (ha : h.Denotes a t) (hb : h.Denotes b piece)
    (hfits : byteLen t + byteLen piece < 2 ^ 32) :
    ∃ k, h.append a b (byteLen t + byteLen piece) piece = some (h.strs.length, k) ∧
      Adds h k (t ++ piece) := by
  obtain ⟨k, hcount, hevolves⟩ := charLen_denotes hb
  have hpiece := length_le_byteLen piece
  have hka := hevolves.keeps a t ha
  have hcount32 : u32 piece.length = piece.length := u32_of_lt (by omega)
  obtain ⟨l, hfresh, hadds⟩ := freshRope_adds hka hfits
  simp only [append, hcount, Option.bind_eq_bind, Option.bind_some, hcount32]
  rw [hevolves.length] at hfresh
  cases hka with
  | flat hget =>
      refine ⟨l, ?_, hevolves.adds hadds⟩
      simp only [hget, Option.bind_some, hfresh]
  | @rope _ prior before old after hget hhead hbefore htail hlen hbytes hsmall hchars =>
      simp only [hget, Option.bind_some]
      by_cases howns : k.ownsTailEnd prior = true
      · have hafter : after = [] := by
          simp only [ownsTailEnd, htail, Option.any_some, beq_iff_eq, byteLen_append] at howns
          have := length_le_byteLen after
          exact List.eq_nil_of_length_eq_zero (by omega)
        have hold : byteLen (before ++ old) = byteLen before + byteLen old := byteLen_append _ _
        have holdchars := length_le_byteLen (before ++ old)
        rw [if_pos howns]
        simp only [Strings.alloc, hevolves.length, ← hlen, hchars,
          u32_of_lt (by omega : byteLen piece < 2 ^ 32),
          u32_of_lt (by omega : byteLen old + byteLen piece < 2 ^ 32), u32_of_lt hfits,
          u32_of_lt (by omega : (before ++ old).length + piece.length < 2 ^ 32)]
        refine ⟨_, rfl, hevolves.adds ?_⟩
        rw [List.append_assoc]
        refine .rope (a := []) (fun i tail hi => ?_) hbefore ?_ ?_ ?_ ?_ ?_
        · rw [List.getElem?_modify, hi]
          by_cases hsame : prior.tail = i
          · exact ⟨piece, by simp [hsame]⟩
          · exact ⟨[], by simp [hsame]⟩
        · simp [htail, hafter]
        · exact byteLen_append old piece
        · simp only [byteLen_append]
          omega
        · simp only [byteLen_append]
          omega
        · simp only [List.length_append]
          omega
      · rw [if_neg howns]
        exact ⟨l, hfresh, hevolves.adds hadds⟩

/-- What `+` gives means what its operands mean together: it is one of them, or new. -/
theorem concatStrings_denotes {a b : Nat} (ha : h.Denotes a t) (hb : h.Denotes b u) :
    ∃ c k, h.concatStrings a b = some (c, k) ∧
      (Evolves h k ∧ h.Denotes c (t ++ u) ∨ c = h.strs.length ∧ Adds h k (t ++ u)) := by
  obtain ⟨k, s, htext, hevolves, -, -⟩ := text_denotes hb
  have hka := hevolves.keeps a t ha
  have hkb := hevolves.keeps b u hb
  simp only [concatStrings, htext, Option.bind_eq_bind, Option.bind_some]
  by_cases hnil : u.isEmpty = true
  · rw [if_pos hnil]
    rw [List.isEmpty_iff] at hnil
    exact ⟨a, k, rfl, .inl ⟨hevolves, by rwa [hnil, List.append_nil]⟩⟩
  · rw [if_neg hnil]
    obtain ⟨left, hleft⟩ := Option.isSome_iff_exists.mp hka.isSome
    simp only [hleft, Option.bind_some, byteLenOf_denotes hka hleft]
    by_cases hcopy : 2 ^ 32 - 1 < byteLen t + byteLen u ∨ (!appendable left) = true
    · rw [if_pos hcopy]
      obtain ⟨l, s', htext', hevolves', -, -⟩ := text_denotes hka
      simp only [htext', Option.bind_some]
      by_cases hempty : t.isEmpty = true
      · rw [if_pos hempty]
        rw [List.isEmpty_iff] at hempty
        exact ⟨b, l, rfl, .inl ⟨hevolves.trans hevolves', by rwa [hempty, List.nil_append]⟩⟩
      · rw [if_neg hempty]
        have hall := hevolves.trans hevolves'
        exact ⟨_, _, rfl, .inr ⟨hall.length, hall.adds (.flat l (.concat (t ++ u)))⟩⟩
    · rw [if_neg hcopy]
      obtain ⟨l, happend, hadds⟩ := append_adds hka hkb (by omega)
      exact ⟨_, l, happend, .inr ⟨hevolves.length, hevolves.adds hadds⟩⟩

/-- A string is collected only when no rope has it for its head. -/
theorem drop_cases (h : Strings) (id : Nat) : h.drop id = h ∨
    h.drop id = h.put id none ∧ ∀ other r, h.get other = some (.rope r) → r.head ≠ id := by
  unfold drop
  split
  · exact .inl rfl
  · next hnone =>
      refine .inr ⟨rfl, fun other r hget heq => hnone ?_⟩
      refine List.any_eq_true.mpr ⟨some (.rope r), ?_, by simpa using heq⟩
      simp only [get, Option.join_eq_some_iff] at hget
      exact List.mem_of_getElem? hget

theorem drop_keeps (hd : h.Denotes other t) (hne : other ≠ id) : (h.drop id).Denotes other t := by
  cases drop_cases h id with
  | inl hsame =>
      rw [hsame]
      exact hd
  | inr hput =>
      obtain ⟨hput, hnone⟩ := hput
      rw [hput]
      have hsame : ∀ other, other ≠ id → (h.put id none).get other = h.get other := by
        intro other hne
        simp only [get, put, List.getElem?_set, if_neg (Ne.symm hne)]
      induction hd with
      | flat hget => exact .flat ((hsame _ hne).trans hget)
      | rope hget hhead _ htail hlen hbytes hfits hchars ih =>
          exact .rope ((hsame _ hne).trans hget) hhead (ih (hnone _ _ hget)) htail hlen hbytes
            hfits hchars

end Strings

end Zuri.Vm
