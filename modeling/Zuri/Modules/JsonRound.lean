import Zuri.Modules.JsonDigits

/-!
Encoding and decoding are inverse: the text of a value, in either layout, is a text of RFC 8259
that is that value. What is decoded has keys that differ, so it can be encoded again, unless a
number of it is infinite or it is nested too deep.
-/

namespace Zuri.Json

mutual

def Value.depth : Value → Nat
  | .list items => if items.isEmpty then 0 else depthItems items + 1
  | .dict entries => if entries.isEmpty then 0 else depthEntries entries + 1
  | .nil | .bool _ | .number _ | .string _ => 0

def depthItems : List Value → Nat
  | [] => 0
  | v :: items => max v.depth (depthItems items)

def depthEntries : List (Text × Value) → Nat
  | [] => 0
  | (_, v) :: entries => max v.depth (depthEntries entries)

end

mutual

/-- Every number is finite. -/
def Value.Finite : Value → Prop
  | .number n => ∃ neg mag, n.num = .fin neg mag
  | .list items => FiniteItems items
  | .dict entries => FiniteEntries entries
  | .nil | .bool _ | .string _ => True

def FiniteItems : List Value → Prop
  | [] => True
  | v :: items => v.Finite ∧ FiniteItems items

def FiniteEntries : List (Text × Value) → Prop
  | [] => True
  | (_, v) :: entries => v.Finite ∧ FiniteEntries entries

end

mutual

/-- The keys of every dictionary differ. -/
def Value.Distinct : Value → Prop
  | .list items => DistinctItems items
  | .dict entries => (entries.map Prod.fst).Nodup ∧ DistinctEntries entries
  | .nil | .bool _ | .number _ | .string _ => True

def DistinctItems : List Value → Prop
  | [] => True
  | v :: items => v.Distinct ∧ DistinctItems items

def DistinctEntries : List (Text × Value) → Prop
  | [] => True
  | (_, v) :: entries => v.Distinct ∧ DistinctEntries entries

end

theorem setEntry_new {entries : List (Text × Value)} {key : Text} (v : Value)
    (h : key ∉ entries.map Prod.fst) : setEntry entries key v = entries ++ [(key, v)] := by
  induction entries with
  | nil => rfl
  | cons e entries ih =>
      rw [List.map_cons, List.mem_cons, not_or] at h
      rw [setEntry, if_neg (Ne.symm h.1), ih h.2]
      rfl

theorem setEntry_keys (entries : List (Text × Value)) (key : Text) (v : Value)
    (h : key ∈ entries.map Prod.fst) :
    (setEntry entries key v).map Prod.fst = entries.map Prod.fst := by
  induction entries with
  | nil => exact absurd h (by simp)
  | cons e entries ih =>
      rw [setEntry]
      split
      · next heq => rw [List.map_cons, List.map_cons, heq]
      · next hne =>
          rw [List.map_cons, List.mem_cons] at h
          rw [List.map_cons, List.map_cons, ih (h.resolve_left fun heq => hne heq.symm)]

theorem setEntry_nodup {entries : List (Text × Value)} (h : (entries.map Prod.fst).Nodup)
    (key : Text) (v : Value) : ((setEntry entries key v).map Prod.fst).Nodup := by
  by_cases hmem : key ∈ entries.map Prod.fst
  · rw [setEntry_keys _ _ _ hmem]
    exact h
  · rw [setEntry_new v hmem, List.map_append, List.nodup_append]
    refine ⟨h, by simp, fun a ha b hb => ?_⟩
    rw [List.map_singleton, List.mem_singleton] at hb
    rintro rfl
    rw [hb] at ha
    exact hmem ha

theorem setEntry_distinct {entries : List (Text × Value)} (h : DistinctEntries entries)
    (key : Text) {v : Value} (hv : v.Distinct) : DistinctEntries (setEntry entries key v) := by
  induction entries with
  | nil => exact ⟨hv, trivial⟩
  | cons e entries ih =>
      obtain ⟨he, hrest⟩ := h
      rw [setEntry]
      split
      · exact ⟨hv, hrest⟩
      · exact ⟨he, ih hrest⟩

theorem fromPairs_distinct {pairs : List (Text × Value)} (h : DistinctEntries pairs) :
    ((fromPairs pairs).map Prod.fst).Nodup ∧ DistinctEntries (fromPairs pairs) := by
  have hfold : ∀ (pairs acc : List (Text × Value)), DistinctEntries pairs →
      (acc.map Prod.fst).Nodup ∧ DistinctEntries acc →
      ((pairs.foldl (fun entries p => setEntry entries p.1 p.2) acc).map Prod.fst).Nodup ∧
        DistinctEntries (pairs.foldl (fun entries p => setEntry entries p.1 p.2) acc) := by
    intro pairs
    induction pairs with
    | nil => exact fun _ _ hacc => hacc
    | cons p pairs ih =>
        intro acc hpairs hacc
        exact ih _ hpairs.2 ⟨setEntry_nodup hacc.1 _ _, setEntry_distinct hacc.2 _ hpairs.1⟩
  exact hfold pairs [] h ⟨List.nodup_nil, trivial⟩

/-- Pairs whose keys differ are the entries as they are. -/
theorem fromPairs_nodup {pairs : List (Text × Value)} (h : (pairs.map Prod.fst).Nodup) :
    fromPairs pairs = pairs := by
  have hfold : ∀ (pairs acc : List (Text × Value)), ((acc ++ pairs).map Prod.fst).Nodup →
      pairs.foldl (fun entries p => setEntry entries p.1 p.2) acc = acc ++ pairs := by
    intro pairs
    induction pairs with
    | nil => exact fun acc _ => (List.append_nil acc).symm
    | cons p pairs ih =>
        intro acc hnodup
        have hnew : p.1 ∉ acc.map Prod.fst := by
          rw [List.map_append, List.nodup_append] at hnodup
          exact fun hmem => hnodup.2.2 _ hmem _ List.mem_cons_self rfl
        rw [List.foldl_cons, setEntry_new _ hnew, ih, List.append_assoc]
        · rfl
        · rw [List.append_assoc]
          exact hnodup
  exact hfold pairs [] h

mutual

theorem IsValue.distinct {g : Grammar} {s r : Text} {v : Value} : IsValue g s v r → v.Distinct
  | .nil _ | .true _ | .false _ | .number _ _ | .string _ => trivial
  | .emptyList _ => trivial
  | .list hs => hs.distinct
  | .emptyDict _ => ⟨List.nodup_nil, trivial⟩
  | .dict hs => fromPairs_distinct hs.distinct

theorem IsItems.distinct {g : Grammar} {s r : Text} {items : List Value} :
    IsItems g s items r → DistinctItems items
  | .last _ hv _ => ⟨hv.distinct, trivial⟩
  | .more _ hv _ hs => ⟨hv.distinct, hs.distinct⟩

theorem IsPairs.distinct {g : Grammar} {s r : Text} {pairs : List (Text × Value)} :
    IsPairs g s pairs r → DistinctEntries pairs
  | .last _ _ _ _ hv _ => ⟨hv.distinct, trivial⟩
  | .more _ _ _ _ hv _ hs => ⟨hv.distinct, hs.distinct⟩

end

theorem hexDigit_value (n : Nat) : hexValue (hexDigit n) = some (n % 16) := by
  have hdigits : ∀ k < 16, hexValue ("0123456789abcdef".toList.getD k '0') = some k := by decide
  exact hdigits (n % 16) (Nat.mod_lt _ (by decide))

theorem encodeChar_chars {c : Char} {rest text r : Text}
    (h : Chars (rfc8259 false) rest text r) :
    Chars (rfc8259 false) (encodeChar c ++ rest) (c :: text) r := by
  unfold encodeChar
  split
  · next hc =>
      subst hc
      exact .short (by decide) h
  · next hquote =>
    split
    · next hc =>
        subst hc
        exact .short (by decide) h
    · next hslash =>
      split
      · next hc =>
          subst hc
          exact .short (by decide) h
      · split
        · next hc =>
            subst hc
            exact .short (by decide) h
        · split
          · next hc =>
              subst hc
              exact .short (by decide) h
          · split
            · next hc =>
                subst hc
                exact .short (by decide) h
            · split
              · next hc =>
                  subst hc
                  exact .short (by decide) h
              · split
                · next hcontrol =>
                    have hhex := Hex4.digits rest (hexDigit_value (c.toNat / 4096))
                      (hexDigit_value (c.toNat / 256)) (hexDigit_value (c.toNat / 16))
                      (hexDigit_value c.toNat)
                    have hnat : ((c.toNat / 4096 % 16 * 16 + c.toNat / 256 % 16) * 16 +
                        c.toNat / 16 % 16) * 16 + c.toNat % 16 = c.toNat := by omega
                    rw [hnat] at hhex
                    refine .unicode hhex ?_ ?_ h
                    · unfold isHigh
                      simp
                      omega
                    · have hvalid : c.toNat.isValidChar := c.valid
                      rw [charFromU32, if_pos hvalid, Char.ofNat_toNat]
                · next hplain => exact .plain hquote hslash (Nat.le_of_not_lt hplain) h

theorem encodeJsonString_chars (s r : Text) :
    ∃ t, encodeJsonString s ++ r = '"' :: t ∧ Chars (rfc8259 false) t s r := by
  refine ⟨s.flatMap encodeChar ++ ('"' :: r), by simp [encodeJsonString], ?_⟩
  induction s with
  | nil => exact .close r
  | cons c s ih =>
      rw [List.flatMap_cons, List.append_assoc]
      exact encodeChar_chars ih

theorem pushIndent_blanks (depth : Nat) (s : Text) :
    Blanks (rfc8259 false) (pushIndent depth ++ s) s := by
  induction depth with
  | zero => exact .done s
  | succ depth ih =>
      have hstep : pushIndent (depth + 1) ++ s = ' ' :: ' ' :: (pushIndent depth ++ s) := by
        simp [pushIndent, List.replicate_succ]
      rw [hstep]
      exact .space (.inl rfl) (.space (.inl rfl) ih)

theorem opening_blanks (o : EncodeOpts) (s : Text) :
    Blanks (rfc8259 false) (o.opening ++ s) s := by
  unfold EncodeOpts.opening
  split
  · exact .done s
  · exact .space (.inr (.inr (.inl rfl))) (.done s)

theorem before_blanks (o : EncodeOpts) (depth : Nat) (s : Text) :
    Blanks (rfc8259 false) (o.before depth ++ s) s := by
  unfold EncodeOpts.before
  split
  · exact .done s
  · exact pushIndent_blanks depth s

theorem colon_blanks (o : EncodeOpts) (s : Text) :
    ∃ t, o.colon ++ s = ':' :: t ∧ Blanks (rfc8259 false) t s := by
  unfold EncodeOpts.colon
  split
  · exact ⟨s, rfl, .done s⟩
  · exact ⟨' ' :: s, rfl, .space (.inl rfl) (.done s)⟩

theorem after_last (o : EncodeOpts) (s : Text) :
    Blanks (rfc8259 false) (o.after true ++ s) s := opening_blanks o s

mutual

/-- What is encoded is a text of the value. -/
theorem encodeValue_isValue (o : EncodeOpts) : ∀ (v : Value) (depth : Nat) (t : Text),
    encodeValue o depth v = .ok t → v.Distinct → ∀ r, IsValue (rfc8259 false) (t ++ r) v r
  | v, depth, t, h, hv, r => by
      rw [encodeValue.eq_def] at h
      split at h
      · exact absurd h (by simp)
      · match v with
        | .nil =>
            obtain rfl := Except.ok.inj h
            exact .nil r
        | .bool true =>
            obtain rfl := Except.ok.inj h
            exact .true r
        | .bool false =>
            obtain rfl := Except.ok.inj h
            exact .false r
        | .number n =>
            cases hn : n.num with
            | fin neg mag =>
                simp only [hn] at h
                obtain rfl := Except.ok.inj h
                exact displayF64_number hn false r
            | nan | inf _ => simp [hn] at h
        | .string s =>
            obtain rfl := Except.ok.inj h
            obtain ⟨t, heq, hs⟩ := encodeJsonString_chars s r
            rw [heq]
            exact .string hs
        | .list [] =>
            obtain rfl := Except.ok.inj h
            exact .emptyList (.done _)
        | .list (v :: items) =>
            obtain ⟨inner, hinner, h⟩ := bind_ok.mp h
            obtain rfl := pure_ok.mp h
            have hitems := encodeItems_isItems o (v :: items) (depth + 1) inner hinner hv (by simp)
              (o.before depth ++ ']' :: r) r (before_blanks o depth _)
            have hopen := opening_blanks o (inner ++ (o.before depth ++ ']' :: r))
            have htext : '[' :: o.opening ++ inner ++ o.before depth ++ [']'] ++ r =
                '[' :: (o.opening ++ (inner ++ (o.before depth ++ ']' :: r))) := by simp
            rw [htext]
            exact .list (hitems.blanks hopen)
        | .dict [] =>
            obtain rfl := Except.ok.inj h
            exact .emptyDict (.done _)
        | .dict (e :: entries) =>
            obtain ⟨inner, hinner, h⟩ := bind_ok.mp h
            obtain rfl := pure_ok.mp h
            have hpairs := encodeEntries_isPairs o (e :: entries) (depth + 1) inner hinner hv.2
              (by simp) (o.before depth ++ '\x7d' :: r) r (before_blanks o depth _)
            have hopen := opening_blanks o (inner ++ (o.before depth ++ '\x7d' :: r))
            have htext : '\x7b' :: o.opening ++ inner ++ o.before depth ++ ['\x7d'] ++ r =
                '\x7b' :: (o.opening ++ (inner ++ (o.before depth ++ '\x7d' :: r))) := by simp
            have hdict := IsValue.dict (hpairs.blanks hopen)
            rw [fromPairs_nodup hv.1] at hdict
            rw [htext]
            exact hdict

theorem encodeItems_isItems (o : EncodeOpts) : ∀ (items : List Value) (depth : Nat) (t : Text),
    encodeItems o depth items = .ok t → DistinctItems items → items ≠ [] →
      ∀ s r, Blanks (rfc8259 false) s (']' :: r) → IsItems (rfc8259 false) (t ++ s) items r
  | [], _, _, _, _, hne, _, _, _ => absurd rfl hne
  | v :: items, depth, t, h, hv, _, s, r, hs => by
      rw [encodeItems] at h
      obtain ⟨text, htext, h⟩ := bind_ok.mp h
      obtain ⟨rest, hrest, h⟩ := bind_ok.mp h
      obtain rfl := pure_ok.mp h
      have hvalue := encodeValue_isValue o v depth text htext hv.1
      rw [List.append_assoc, List.append_assoc, List.append_assoc]
      have hbefore := before_blanks o depth (text ++ (o.after items.isEmpty ++ (rest ++ s)))
      match items with
      | [] =>
          obtain rfl := Except.ok.inj hrest
          exact .last hbefore (hvalue _) ((after_last o _).trans hs)
      | w :: items =>
          have hitems := encodeItems_isItems o (w :: items) depth rest hrest hv.2 (by simp) s r hs
          have hmore : Blanks (rfc8259 false) (o.after (w :: items).isEmpty ++ (rest ++ s))
              (',' :: (o.opening ++ (rest ++ s))) := .done _
          exact .more hbefore (hvalue _) hmore (hitems.blanks (opening_blanks o _))

theorem encodeEntries_isPairs (o : EncodeOpts) : ∀ (entries : List (Text × Value)) (depth : Nat)
    (t : Text), encodeEntries o depth entries = .ok t → DistinctEntries entries → entries ≠ [] →
      ∀ s r, Blanks (rfc8259 false) s ('\x7d' :: r) → IsPairs (rfc8259 false) (t ++ s) entries r
  | [], _, _, _, _, hne, _, _, _ => absurd rfl hne
  | (key, v) :: entries, depth, t, h, hv, _, s, r, hs => by
      rw [encodeEntries] at h
      obtain ⟨text, htext, h⟩ := bind_ok.mp h
      obtain ⟨rest, hrest, h⟩ := bind_ok.mp h
      obtain rfl := pure_ok.mp h
      have hvalue := encodeValue_isValue o v depth text htext hv.1
      rw [List.append_assoc, List.append_assoc, List.append_assoc, List.append_assoc,
        List.append_assoc]
      obtain ⟨t₁, heq₁, hcolon⟩ := colon_blanks o
        (text ++ (o.after entries.isEmpty ++ (rest ++ s)))
      obtain ⟨t₂, heq₂, hkey⟩ := encodeJsonString_chars key (':' :: t₁)
      have hbefore := before_blanks o depth ('"' :: t₂)
      rw [heq₁, heq₂]
      match entries with
      | [] =>
          obtain rfl := Except.ok.inj hrest
          exact .last hbefore hkey (.done _) hcolon (hvalue _) ((after_last o _).trans hs)
      | e :: entries =>
          have hpairs := encodeEntries_isPairs o (e :: entries) depth rest hrest hv.2 (by simp)
            s r hs
          have hmore : Blanks (rfc8259 false) (o.after (e :: entries).isEmpty ++ (rest ++ s))
              (',' :: (o.opening ++ (rest ++ s))) := .done _
          exact .more hbefore hkey (.done _) hcolon (hvalue _) hmore
            (hpairs.blanks (opening_blanks o _))

end

mutual

/-- A value is encoded exactly when its numbers are finite and it is not too deep. -/
theorem encodeValue_ok (o : EncodeOpts) : ∀ (v : Value) (depth : Nat),
    (∃ t, encodeValue o depth v = .ok t) ↔ v.Finite ∧ depth + v.depth ≤ o.maxDepth
  | v, depth => by
      rw [encodeValue.eq_def]
      by_cases hdepth : o.maxDepth < depth
      · rw [if_pos hdepth]
        refine ⟨fun h => absurd h (by simp), fun h => ?_⟩
        omega
      · rw [if_neg hdepth]
        have hle : depth ≤ o.maxDepth := Nat.le_of_not_lt hdepth
        match v with
        | .nil => exact ⟨fun _ => ⟨trivial, hle⟩, fun _ => ⟨_, rfl⟩⟩
        | .bool b => exact ⟨fun _ => ⟨trivial, hle⟩, fun _ => ⟨_, rfl⟩⟩
        | .string s => exact ⟨fun _ => ⟨trivial, hle⟩, fun _ => ⟨_, rfl⟩⟩
        | .number n =>
            cases hn : n.num with
            | fin neg mag =>
                simp only [hn]
                exact ⟨fun _ => ⟨⟨neg, mag, hn⟩, hle⟩, fun _ => ⟨_, rfl⟩⟩
            | nan | inf _ =>
                simp only [hn]
                refine ⟨fun h => absurd h (by simp), fun h => ?_⟩
                obtain ⟨⟨neg, mag, hfin⟩, -⟩ := h
                rw [hn] at hfin
                exact absurd hfin (by simp)
        | .list [] => exact ⟨fun _ => ⟨trivial, hle⟩, fun _ => ⟨_, rfl⟩⟩
        | .list (v :: items) =>
            have hitems := encodeItems_ok o (v :: items) (depth + 1)
            have hdepthItems : (Value.list (v :: items)).depth = depthItems (v :: items) + 1 := rfl
            rw [hdepthItems]
            constructor
            · rintro ⟨t, h⟩
              obtain ⟨inner, hinner, -⟩ := bind_ok.mp h
              obtain ⟨hfinite, hbound⟩ := hitems.mp ⟨inner, hinner⟩
              exact ⟨hfinite, by have := hbound.resolve_left (by simp); omega⟩
            · rintro ⟨hfinite, hbound⟩
              obtain ⟨inner, hinner⟩ := hitems.mpr ⟨hfinite, .inr (by omega)⟩
              exact ⟨_, bind_ok.mpr ⟨inner, hinner, rfl⟩⟩
        | .dict [] => exact ⟨fun _ => ⟨trivial, hle⟩, fun _ => ⟨_, rfl⟩⟩
        | .dict (e :: entries) =>
            have hentries := encodeEntries_ok o (e :: entries) (depth + 1)
            have hdepthEntries : (Value.dict (e :: entries)).depth =
                depthEntries (e :: entries) + 1 := rfl
            rw [hdepthEntries]
            constructor
            · rintro ⟨t, h⟩
              obtain ⟨inner, hinner, -⟩ := bind_ok.mp h
              obtain ⟨hfinite, hbound⟩ := hentries.mp ⟨inner, hinner⟩
              exact ⟨hfinite, by have := hbound.resolve_left (by simp); omega⟩
            · rintro ⟨hfinite, hbound⟩
              obtain ⟨inner, hinner⟩ := hentries.mpr ⟨hfinite, .inr (by omega)⟩
              exact ⟨_, bind_ok.mpr ⟨inner, hinner, rfl⟩⟩

theorem encodeItems_ok (o : EncodeOpts) : ∀ (items : List Value) (depth : Nat),
    (∃ t, encodeItems o depth items = .ok t) ↔
      FiniteItems items ∧ (items = [] ∨ depth + depthItems items ≤ o.maxDepth)
  | [], _ => ⟨fun _ => ⟨trivial, .inl rfl⟩, fun _ => ⟨_, rfl⟩⟩
  | v :: items, depth => by
      have hvalue := encodeValue_ok o v depth
      have hitems := encodeItems_ok o items depth
      rw [encodeItems]
      constructor
      · rintro ⟨t, h⟩
        obtain ⟨text, htext, h⟩ := bind_ok.mp h
        obtain ⟨rest, hrest, -⟩ := bind_ok.mp h
        obtain ⟨hfinite, hbound⟩ := hvalue.mp ⟨text, htext⟩
        obtain ⟨hfinites, hbounds⟩ := hitems.mp ⟨rest, hrest⟩
        refine ⟨⟨hfinite, hfinites⟩, .inr ?_⟩
        rw [depthItems]
        rcases hbounds with rfl | hbounds
        · rw [depthItems]
          omega
        · omega
      · rintro ⟨⟨hfinite, hfinites⟩, hbound⟩
        have hbound := hbound.resolve_left (by simp)
        rw [depthItems] at hbound
        obtain ⟨text, htext⟩ := hvalue.mpr ⟨hfinite, by omega⟩
        obtain ⟨rest, hrest⟩ := hitems.mpr ⟨hfinites, .inr (by omega)⟩
        exact ⟨_, bind_ok.mpr ⟨text, htext, bind_ok.mpr ⟨rest, hrest, rfl⟩⟩⟩

theorem encodeEntries_ok (o : EncodeOpts) : ∀ (entries : List (Text × Value)) (depth : Nat),
    (∃ t, encodeEntries o depth entries = .ok t) ↔
      FiniteEntries entries ∧ (entries = [] ∨ depth + depthEntries entries ≤ o.maxDepth)
  | [], _ => ⟨fun _ => ⟨trivial, .inl rfl⟩, fun _ => ⟨_, rfl⟩⟩
  | (key, v) :: entries, depth => by
      have hvalue := encodeValue_ok o v depth
      have hentries := encodeEntries_ok o entries depth
      rw [encodeEntries]
      constructor
      · rintro ⟨t, h⟩
        obtain ⟨text, htext, h⟩ := bind_ok.mp h
        obtain ⟨rest, hrest, -⟩ := bind_ok.mp h
        obtain ⟨hfinite, hbound⟩ := hvalue.mp ⟨text, htext⟩
        obtain ⟨hfinites, hbounds⟩ := hentries.mp ⟨rest, hrest⟩
        refine ⟨⟨hfinite, hfinites⟩, .inr ?_⟩
        rw [depthEntries]
        rcases hbounds with rfl | hbounds
        · rw [depthEntries]
          omega
        · omega
      · rintro ⟨⟨hfinite, hfinites⟩, hbound⟩
        have hbound := hbound.resolve_left (by simp)
        rw [depthEntries] at hbound
        obtain ⟨text, htext⟩ := hvalue.mpr ⟨hfinite, by omega⟩
        obtain ⟨rest, hrest⟩ := hentries.mpr ⟨hfinites, .inr (by omega)⟩
        exact ⟨_, bind_ok.mpr ⟨text, htext, bind_ok.mpr ⟨rest, hrest, rfl⟩⟩⟩

end

theorem rfc8259_comments (comments : Bool) : (rfc8259 false).Within (rfc8259 comments) where
  space _ h := h
  plain _ h := h
  numeral _ _ h := h
  comments h := absurd h Bool.false_ne_true
  unclosed h := h

theorem encode_isText {o : EncodeOpts} {v : Value} {t : Text} (h : encode o v = .ok t)
    (hv : v.Distinct) : IsText (rfc8259 false) t v := by
  have hvalue := encodeValue_isValue o v 0 t h hv []
  rw [List.append_nil] at hvalue
  exact ⟨t, [], .done _, hvalue, .done _⟩

/-- What is encoded is decoded to the value, whether comments are allowed or not. -/
theorem encode_decode {o : EncodeOpts} {v : Value} {t : Text} (h : encode o v = .ok t)
    (hv : v.Distinct) (comments : Bool) : decode comments t = .ok v := by
  have htext := encode_isText h hv
  exact decode_iff.mpr ((htext.mono (rfc8259_comments comments)).mono (rfc8259_within comments))

/-- A value has a text exactly when its numbers are finite and it is not too deep. In either layout
it is a text of RFC 8259. -/
theorem encode_rfc8259 (o : EncodeOpts) {v : Value} (hv : v.Distinct) :
    ((∃ t, encode o v = .ok t) ↔ v.Finite ∧ v.depth ≤ o.maxDepth) ∧
      ∀ t, encode o v = .ok t → IsText (rfc8259 false) t v :=
  ⟨by simpa [encode] using encodeValue_ok o v 0, fun _ h => encode_isText h hv⟩

theorem encode_rfc8259_one : IsText (rfc8259 false) "[null]".toList (.list [.nil]) :=
  (encode_rfc8259 ⟨true, 1⟩ (v := .list [.nil]) ⟨trivial, trivial⟩).2 _ rfl

/-- Values are decoded from their texts; and a decoded value whose numbers are finite, and that is
not too deep, is encoded to a text of it. -/
theorem json_round_trip (o : EncodeOpts) (comments : Bool) :
    (∀ v : Value, v.Distinct → v.Finite → v.depth ≤ o.maxDepth →
      ∃ t, encode o v = .ok t ∧ decode comments t = .ok v) ∧
    ∀ s v, decode comments s = .ok v →
      ((∃ t, encode o v = .ok t) ↔ v.Finite ∧ v.depth ≤ o.maxDepth) ∧
        ∀ t, encode o v = .ok t → ∀ comments', decode comments' t = .ok v := by
  have hok : ∀ v : Value, (∃ t, encode o v = .ok t) ↔ v.Finite ∧ v.depth ≤ o.maxDepth := by
    intro v
    have h := encodeValue_ok o v 0
    rwa [Nat.zero_add] at h
  refine ⟨fun v hv hfinite hdepth => ?_, fun s v hs => ⟨hok v, fun t ht comments' => ?_⟩⟩
  · obtain ⟨t, ht⟩ := (hok v).mpr ⟨hfinite, hdepth⟩
    exact ⟨t, ht, encode_decode ht hv comments⟩
  · obtain ⟨s₁, s₂, -, hv, -⟩ := decode_iff.mp hs
    exact encode_decode ht hv.distinct comments'

theorem json_round_trip_nested :
    ∃ t, encode ⟨false, DEFAULT_MAX_DEPTH⟩
        (.dict [(['a'], .list [.nil, .bool true]), (['"'], .string ['\n'])]) = .ok t ∧
      decode false t = .ok (.dict [(['a'], .list [.nil, .bool true]), (['"'], .string ['\n'])]) :=
  (json_round_trip ⟨false, DEFAULT_MAX_DEPTH⟩ false).1 _
    (by simp [Value.Distinct, DistinctEntries, DistinctItems])
    (by simp [Value.Finite, FiniteEntries, FiniteItems]) (by decide)

/-- A number past the doubles is decoded to an infinity, which is not encoded. -/
theorem json_round_trip_fails :
    ¬∀ s v, decode true s = .ok v → ∃ t, encode ⟨true, DEFAULT_MAX_DEPTH⟩ v = .ok t := by
  intro h
  have hnumeral : (lenient true).numeral false ⟨['1'], none, some ('e', [], ['9', '9', '9'])⟩ :=
    ⟨⟨List.forall_iff_forall_mem.mp (by decide), List.forall_iff_forall_mem.mp (by decide), by simp,
      by simp, by simp⟩, by decide, .inr (by decide)⟩
  have hinf : (Numeral.value ⟨['1'], none, some ('e', [], ['9', '9', '9'])⟩ false).num =
      .inf false := by decide +kernel
  obtain ⟨t, ht⟩ := h _ _ (decode_iff.mpr
    ⟨_, _, .done _, IsValue.number [] hnumeral, .done _⟩)
  obtain ⟨⟨neg, mag, hfin⟩, -⟩ := (encodeValue_ok _ _ 0).mp ⟨t, ht⟩
  rw [hinf] at hfin
  exact absurd hfin (by simp)

end Zuri.Json
