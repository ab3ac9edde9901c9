import Mathlib.Data.List.Forall2
import Zuri.Vm.Rope

/-!
Strings over whole runs. A program keeps the strings that it makes, in the order it makes them,
until it lets go of them. What each of them is to read as is told by the operations alone: a
literal as itself, a slice as what it is cut out of, a concatenation as its operands.
-/

namespace Zuri.Vm

open Utf8

inductive Query where
  | isAscii
  | charLen
  | byteOffset (index : Nat)
  | charOffset (index : Nat)
  | charAt (index : Nat)
  deriving DecidableEq

/-- A query for what it notes down. The byte offset of `charOffset` is that of a character. -/
def Query.run (t : List Char) : Query → ReadM Unit
  | .isAscii => discard Vm.isAscii
  | .charLen => discard Vm.charLen
  | .byteOffset index => discard (Vm.byteOffset index)
  | .charOffset index =>
      if index ≤ t.length then discard (Vm.charOffset (byteLen (t.take index))) else pure ()
  | .charAt index => discard (Vm.charAt index)

/-- An operation on strings by the places the program keeps them in, and the collection of an
object by its place in the heap. -/
inductive StringEvent where
  | alloc (text : List Char)
  | concat (a b : Nat)
  | read (n : Nat)
  | count (n : Nat)
  | query (n : Nat) (q : Query)
  | slice (n start stop : Nat)
  | letGo (n : Nat)
  | collect (id : Nat)
  deriving DecidableEq

/-- What the strings that are kept are to read as, after one more operation. -/
def textsStep (texts : List (Option (List Char))) : StringEvent → List (Option (List Char))
  | .alloc text => texts ++ [some text]
  | .concat a b =>
      match texts[a]?.join, texts[b]?.join with
      | some t, some u => texts ++ [some (t ++ u)]
      | _, _ => texts
  | .slice n start stop =>
      match texts[n]?.join with
      | some t =>
          if start ≤ stop ∧ stop ≤ t.length then texts ++ [some ((t.take stop).drop start)]
          else texts
      | none => texts
  | .letGo n => texts.set n none
  | .read _ | .count _ | .query _ _ | .collect _ => texts

/-- What the strings that are kept are to read as. -/
def texts (log : List StringEvent) : List (Option (List Char)) := log.foldl textsStep []

/-- The heap, and the strings that the program keeps. -/
structure StringStore where
  heap : Strings
  kept : List (Option Nat)

namespace StringStore

def start : StringStore := ⟨⟨[], []⟩, []⟩

def step (s : StringStore) : StringEvent → StringStore
  | .alloc text =>
      let (id, heap) := s.heap.alloc (.flat (.flat text))
      ⟨heap, s.kept ++ [some id]⟩
  | .concat a b =>
      match s.kept[a]?.join, s.kept[b]?.join with
      | some a, some b =>
          match s.heap.concatStrings a b with
          | some (id, heap) => ⟨heap, s.kept ++ [some id]⟩
          | none => s
      | _, _ => s
  | .read n =>
      match s.kept[n]?.join.bind s.heap.text with
      | some (_, heap) => { s with heap := heap }
      | none => s
  | .count n =>
      match s.kept[n]?.join.bind s.heap.charLen with
      | some (_, heap) => { s with heap := heap }
      | none => s
  | .query n q =>
      match s.kept[n]?.join with
      | some id =>
          match (s.heap.text id).bind fun (t, heap) => heap.query id (q.run t) with
          | some (_, heap) => { s with heap := heap }
          | none => s
      | none => s
  | .slice n start stop =>
      match s.kept[n]?.join with
      | some id =>
          match s.heap.text id with
          | some (t, heap) =>
              if start ≤ stop ∧ stop ≤ t.length then
                match heap.query id (charSlice start stop) with
                | some (cut, heap) =>
                    let (id, heap) := heap.alloc (.flat (.flat cut))
                    ⟨heap, s.kept ++ [some id]⟩
                | none => { s with heap := heap }
              else { s with heap := heap }
          | none => s
      | none => s
  | .letGo n => { s with kept := s.kept.set n none }
  | .collect id => if some id ∈ s.kept then s else { s with heap := s.heap.drop id }

def run (log : List StringEvent) : StringStore := log.foldl step start

/-- A place of the program's, and what it is to read as. -/
inductive Means (h : Strings) : Option Nat → Option (List Char) → Prop
  | gone : Means h none none
  | kept {id : Nat} {t : List Char} (hd : h.Denotes id t) : Means h (some id) (some t)

/-- The strings that are kept mean what they are to read as. -/
abbrev Meant (s : StringStore) (ts : List (Option (List Char))) : Prop :=
  List.Forall₂ (Means s.heap) s.kept ts

theorem Means.imp {h k : Strings} (hkeeps : ∀ id t, h.Denotes id t → k.Denotes id t)
    (o : Option Nat) (t : Option (List Char)) (hm : Means h o t) : Means k o t := by
  cases hm with
  | gone => exact .gone
  | kept hd => exact .kept (hkeeps _ _ hd)

theorem answers_discard {α : Type} {s : FlatStr} {m : ReadM α} {a : α} (h : Answers s m a) :
    Answers s (discard m) () := by
  obtain ⟨t, ht, htext⟩ := h
  refine ⟨t, ?_, htext⟩
  simp [discard, Functor.discard, Functor.mapConst, StateT.map, ht]

theorem answers_query (s : FlatStr) (q : Query) : Answers s (q.run s.text) () := by
  cases q with
  | isAscii => exact answers_discard (answers_isAscii s)
  | charLen => exact answers_discard (answers_charLen s)
  | byteOffset index => exact answers_discard (answers_byteOffset s index)
  | charOffset index =>
      simp only [Query.run]
      split
      · next hle => exact answers_discard (answers_charOffset s hle)
      · exact Answers.pure ()
  | charAt index => exact answers_discard (answers_charAt s index)

theorem forall₂_get {α β : Type} {r : α → β → Prop} {as : List α} {bs : List β}
    (h : List.Forall₂ r as bs) (n : Nat) :
    as[n]? = none ∧ bs[n]? = none ∨ ∃ a b, as[n]? = some a ∧ bs[n]? = some b ∧ r a b := by
  induction h generalizing n with
  | nil => exact .inl ⟨rfl, rfl⟩
  | cons hr _ ih =>
      cases n with
      | zero => exact .inr ⟨_, _, rfl, rfl, hr⟩
      | succ n => exact ih n

theorem forall₂_imp {α β : Type} {r r' : α → β → Prop} {as : List α} {bs : List β}
    (h : List.Forall₂ r as bs) (himp : ∀ a ∈ as, ∀ b, r a b → r' a b) : List.Forall₂ r' as bs := by
  induction h with
  | nil => exact .nil
  | cons hr _ ih =>
      exact .cons (himp _ List.mem_cons_self _ hr)
        (ih fun a ha => himp a (List.mem_cons_of_mem _ ha))

theorem forall₂_set {α β : Type} {r : α → β → Prop} {as : List α} {bs : List β} {a : α} {b : β}
    (h : List.Forall₂ r as bs) (hr : r a b) (n : Nat) :
    List.Forall₂ r (as.set n a) (bs.set n b) := by
  induction h generalizing n with
  | nil => exact .nil
  | cons hfirst hrest ih =>
      cases n with
      | zero => exact .cons hr hrest
      | succ n => exact .cons hfirst (ih n)

namespace Meant

variable {s : StringStore} {ts : List (Option (List Char))}

/-- A place is empty for both, or has a string that means what it is to. -/
theorem place (h : Meant s ts) (n : Nat) :
    s.kept[n]?.join = none ∧ ts[n]?.join = none ∨
      ∃ id t, s.kept[n]?.join = some id ∧ ts[n]?.join = some t ∧ s.heap.Denotes id t := by
  rcases forall₂_get h n with ⟨hkept, ht⟩ | ⟨o, t, hkept, ht, hm⟩
  · rw [hkept, ht]
    exact .inl ⟨rfl, rfl⟩
  · rw [hkept, ht]
    cases hm with
    | gone => exact .inl ⟨rfl, rfl⟩
    | kept hd => exact .inr ⟨_, _, rfl, rfl, hd⟩

theorem moves (h : Meant s ts) {heap : Strings}
    (hkeeps : ∀ id t, s.heap.Denotes id t → heap.Denotes id t) :
    Meant { s with heap := heap } ts := List.Forall₂.imp (Means.imp hkeeps) h

theorem adds (h : Meant s ts) {heap : Strings} {id : Nat} {t : List Char}
    (hkeeps : ∀ id t, s.heap.Denotes id t → heap.Denotes id t) (hd : heap.Denotes id t) :
    Meant ⟨heap, s.kept ++ [some id]⟩ (ts ++ [some t]) :=
  List.rel_append (h.moves hkeeps) (.cons (.kept hd) .nil)

theorem concat (h : Meant s ts) (a b : Nat) :
    Meant (s.step (.concat a b)) (textsStep ts (.concat a b)) := by
  simp only [step, textsStep]
  rcases h.place a with ⟨ha, ht⟩ | ⟨i, t, ha, ht, hda⟩
  · simp only [ha, ht]
    exact h
  · rcases h.place b with ⟨hb, hu⟩ | ⟨j, u, hb, hu, hdb⟩
    · simp only [ha, ht, hb, hu]
      exact h
    · obtain ⟨id, heap, hrun, hcase⟩ := Strings.concatStrings_denotes hda hdb
      simp only [ha, ht, hb, hu, hrun]
      rcases hcase with ⟨hevolves, hd⟩ | ⟨rfl, hadds⟩
      · exact h.adds hevolves.keeps (hevolves.keeps _ _ hd)
      · exact h.adds hadds.keeps hadds.denotes

theorem slice (h : Meant s ts) (n start stop : Nat) :
    Meant (s.step (.slice n start stop)) (textsStep ts (.slice n start stop)) := by
  simp only [step, textsStep]
  rcases h.place n with ⟨hn, ht⟩ | ⟨id, t, hn, ht, hd⟩
  · simp only [hn, ht]
    exact h
  · obtain ⟨heap, _, htext, hevolves, -, -⟩ := Strings.text_denotes hd
    simp only [hn, ht, htext]
    split
    · next hbounds =>
        obtain ⟨k, hquery, hcut⟩ := Strings.query_denotes (hevolves.keeps _ _ hd)
          (a := (t.take stop).drop start)
          fun f hf => hf ▸ answers_charSlice f hbounds.1 (hf.symm ▸ hbounds.2)
        simp only [hquery]
        have hadds := Strings.Adds.flat k (.flat ((t.take stop).drop start))
        exact h.adds (fun _ _ hold => hadds.keeps _ _ (hcut.keeps _ _ (hevolves.keeps _ _ hold)))
          hadds.denotes
    · exact h.moves hevolves.keeps

theorem query (h : Meant s ts) (n : Nat) (q : Query) : Meant (s.step (.query n q)) ts := by
  simp only [step]
  rcases h.place n with ⟨hn, -⟩ | ⟨id, t, hn, -, hd⟩
  · simp only [hn]
    exact h
  · obtain ⟨heap, _, htext, hevolves, -, -⟩ := Strings.text_denotes hd
    obtain ⟨k, hquery, hnoted⟩ := Strings.query_denotes (hevolves.keeps _ _ hd) (m := q.run t)
      (a := ()) fun f hf => hf ▸ answers_query f q
    simp only [hn, htext, Option.bind_some, hquery]
    exact h.moves fun _ _ hold => hnoted.keeps _ _ (hevolves.keeps _ _ hold)

/-- Nothing that is collected is kept. -/
theorem collect (h : Meant s ts) (id : Nat) : Meant (s.step (.collect id)) ts := by
  simp only [step]
  split
  · exact h
  · next hgone =>
      refine forall₂_imp h fun o ho t hm => ?_
      cases hm with
      | gone => exact .gone
      | kept hd => exact .kept (Strings.drop_keeps hd fun heq => hgone (heq ▸ ho))

theorem step (h : Meant s ts) (e : StringEvent) : Meant (s.step e) (textsStep ts e) := by
  cases e with
  | alloc text =>
      have hadds := Strings.Adds.flat s.heap (.flat text)
      exact h.adds hadds.keeps hadds.denotes
  | concat a b => exact h.concat a b
  | read n =>
      simp only [StringStore.step, textsStep]
      rcases h.place n with ⟨hn, -⟩ | ⟨id, t, hn, -, hd⟩
      · simp only [hn, Option.bind_none]
        exact h
      · obtain ⟨heap, _, htext, hevolves, -, -⟩ := Strings.text_denotes hd
        simp only [hn, Option.bind_some, htext]
        exact h.moves hevolves.keeps
  | count n =>
      simp only [StringStore.step, textsStep]
      rcases h.place n with ⟨hn, -⟩ | ⟨id, t, hn, -, hd⟩
      · simp only [hn, Option.bind_none]
        exact h
      · obtain ⟨heap, hcount, hevolves⟩ := Strings.charLen_denotes hd
        simp only [hn, Option.bind_some, hcount]
        exact h.moves hevolves.keeps
  | query n q => exact h.query n q
  | slice n start stop => exact h.slice n start stop
  | letGo n => exact forall₂_set h .gone n
  | collect id => exact h.collect id

theorem run (log : List StringEvent) : Meant (run log) (texts log) := by
  suffices h : ∀ (log : List StringEvent) (s : StringStore) (ts : List (Option (List Char))),
      Meant s ts → Meant (log.foldl StringStore.step s) (log.foldl textsStep ts) from
    h log start [] .nil
  intro log
  induction log with
  | nil => exact fun _ _ h => h
  | cons e es ih => exact fun _ _ h => ih _ _ (h.step e)

end Meant

/-- A string reads as the text, and its count, its queries and its slices are those of the text;
the lengths that a rope keeps are too, and are not too long for 32 bits. -/
structure Reads (h : Strings) (id : Nat) (t : List Char) : Prop where
  text : ∃ heap, h.text id = some (t, heap)
  charLen : ∃ heap, h.charLen id = some (t.length, heap)
  isAscii : ∃ heap, h.query id isAscii = some (isAsciiText t, heap)
  slice : ∀ first last, first ≤ last → last ≤ t.length →
    ∃ heap, h.query id (charSlice first last) = some ((t.take last).drop first, heap)
  lengths : ∀ r, h.get id = some (.rope r) → r.len = byteLen t ∧ r.chars = t.length ∧
    r.tailLen ≤ r.len ∧ r.len < 2 ^ 32

theorem reads {h : Strings} {id : Nat} {t : List Char} (hd : h.Denotes id t) : Reads h id t := by
  refine ⟨?_, ?_, ?_, fun first last hle hlast => ?_, fun r hr => ?_⟩
  · obtain ⟨k, _, htext, -⟩ := Strings.text_denotes hd
    exact ⟨k, htext⟩
  · obtain ⟨k, hcount, -⟩ := Strings.charLen_denotes hd
    exact ⟨k, hcount⟩
  · obtain ⟨k, hquery, -⟩ := Strings.query_denotes hd fun f hf => hf ▸ answers_isAscii f
    exact ⟨k, hquery⟩
  · obtain ⟨k, hquery, -⟩ := Strings.query_denotes hd fun f hf =>
      hf ▸ answers_charSlice f hle (hf.symm ▸ hlast)
    exact ⟨k, hquery⟩
  · cases hd with
    | flat hget => rw [hget] at hr; cases hr
    | rope hget _ _ _ hlen hbytes hfits hchars =>
        rw [hget] at hr
        cases hr
        refine ⟨hbytes, hchars, ?_, hbytes ▸ hfits⟩
        rw [hbytes, ← hlen, byteLen_append]
        exact Nat.le_add_left _ _

/-- A place that has a string to read keeps it until the program lets go of it. -/
theorem textsStep_place {ts : List (Option (List Char))} {n : Nat} {t : List Char}
    (h : ts[n]?.join = some t) (e : StringEvent) (hkept : e ≠ .letGo n) :
    (textsStep ts e)[n]?.join = some t := by
  have happend : ∀ o, (ts ++ [o])[n]?.join = some t := by
    intro o
    have hlt : n < ts.length := by
      by_contra hge
      rw [List.getElem?_eq_none (by omega)] at h
      cases h
    rwa [List.getElem?_append_left hlt]
  cases e with
  | alloc text => exact happend _
  | concat a b =>
      simp only [textsStep]
      split
      · exact happend _
      · exact h
  | slice m start stop =>
      simp only [textsStep]
      split
      · split
        · exact happend _
        · exact h
      · exact h
  | letGo m =>
      have hne : m ≠ n := fun heq => hkept (heq ▸ rfl)
      rw [textsStep, List.getElem?_set_ne hne]
      exact h
  | read _ | count _ | query _ _ | collect _ => exact h

/-- In every run, each string that the program keeps reads as what the operations tell it is: a
literal as itself, a concatenation as its operands one after the other, a slice as what it was cut
out of. It goes on reading so whatever is done, until the program lets go of it. -/
theorem strings_exact (log : List StringEvent) (n : Nat) :
    ((run log).kept[n]?.join = none ∧ (texts log)[n]?.join = none ∨
      ∃ id t, (run log).kept[n]?.join = some id ∧ (texts log)[n]?.join = some t ∧
        Reads (run log).heap id t) ∧
    ∀ t more, (texts log)[n]?.join = some t → .letGo n ∉ more →
      (texts (log ++ more))[n]?.join = some t := by
  refine ⟨?_, fun t more ht hmore => ?_⟩
  · rcases (Meant.run log).place n with hgone | ⟨id, t, hkept, ht, hd⟩
    · exact .inl hgone
    · exact .inr ⟨id, t, hkept, ht, reads hd⟩
  · rw [texts, List.foldl_append]
    rw [texts] at ht
    generalize log.foldl textsStep [] = ts at ht
    induction more generalizing ts with
    | nil => exact ht
    | cons e more ih =>
        obtain ⟨hne, hmore⟩ := not_or.mp (mt List.mem_cons.mpr hmore)
        exact ih hmore _ (textsStep_place ht e (Ne.symm hne))

/-- A string is appended to itself and to that, the first is let go of and collected, and a rope
is read before one that shares its tail. -/
theorem strings_exact_ropes :
    ∃ id, (run [.alloc ['a', 'b'], .concat 0 0, .concat 1 0, .letGo 0, .read 1, .collect 0,
        .concat 2 1]).kept[3]?.join = some id ∧
      Reads (run [.alloc ['a', 'b'], .concat 0 0, .concat 1 0, .letGo 0, .read 1, .collect 0,
        .concat 2 1]).heap id ['a', 'b', 'a', 'b', 'a', 'b', 'a', 'b', 'a', 'b'] := by
  rcases (strings_exact [.alloc ['a', 'b'], .concat 0 0, .concat 1 0, .letGo 0, .read 1, .collect 0,
    .concat 2 1] 3).1 with ⟨-, hnone⟩ | ⟨id, t, hkept, ht, hreads⟩
  · cases hnone
  · obtain rfl := Option.some.inj ht
    exact ⟨id, hkept, hreads⟩

end StringStore

end Zuri.Vm
