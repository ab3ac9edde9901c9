import Zuri.Http.Cookies

/-!
Runs of a jar: stores and requests one after another, in the order of their times. A jar has, under
each key, the latest cookie that was accepted for it, or none once that cookie had expired.
A request's cookies are put by the length of their paths, and of equal names the last put stays.
-/

namespace Zuri.Cookies

/-- A call of `store`. -/
structure Event where
  time : ℚ
  host : Text
  requestPath : Option Text
  cookie : Cookie

section
variable (lower : Text → Text)

/-- The domain, the path and the name that an accepted cookie is kept for. -/
def Event.place (e : Event) : Option (Text × Text × Text) :=
  (acceptedDomain lower e.cookie e.host).map fun domain =>
    (domain, acceptedPath e.cookie e.requestPath, e.cookie.name)

def Event.key (e : Event) : Option Text :=
  (e.place lower).map fun p => keyText p.1 p.2.1 p.2.2

def Event.path (e : Event) : Text := acceptedPath e.cookie e.requestPath

def Event.entry (e : Event) (domain : Text) : Entry :=
  ⟨{ e.cookie with path := some e.path }, domain, e.cookie.domain.isSome⟩

/-- The latest event of a key. The events are listed from the latest to the first. -/
def latest (events : List Event) (k : Text) : Option Event :=
  events.find? fun e => e.key lower == some k

/-- What a jar is after the stores of `events`, with requests among them, up to a time. -/
inductive Run : List Event → Jar → ℚ → Prop where
  | start (now : ℚ) : Run [] [] now
  | store {events jar now} (e : Event) (hrun : Run events jar now) (htime : now ≤ e.time) :
      Run (e :: events) (store lower jar e.cookie e.host e.requestPath e.time).1 e.time
  | request {events jar now} (host path : Text) (secure : Bool) (time : ℚ)
      (hrun : Run events jar now) (htime : now ≤ time) :
      Run events (cookiesFor lower jar host path secure time).2 time

end

theorem isExpired_mono {cookie : Cookie} {now later : ℚ} (hle : now ≤ later)
    (hexpired : cookie.isExpired now = true) : cookie.isExpired later = true := by
  rw [Cookie.isExpired] at hexpired ⊢
  split at hexpired
  · exact hexpired
  · split at hexpired
    · simp only [decide_eq_true_eq] at hexpired ⊢
      exact hexpired.trans hle
    · cases hexpired

theorem get_remove {β : Type} (entries : List (Text × β)) (k k' : Text) :
    OrderedMap.get (· == ·) (OrderedMap.remove (· == ·) entries k) k' =
      if k = k' then none else OrderedMap.get (· == ·) entries k' := by
  induction entries with
  | nil => simp [OrderedMap.remove, OrderedMap.get]
  | cons e entries ih =>
    rw [OrderedMap.remove, List.filter_cons]
    by_cases he : e.1 = k
    · rw [if_neg (by simp [he])]
      change OrderedMap.get (· == ·) (OrderedMap.remove (· == ·) entries k) k' = _
      rw [ih]
      by_cases hk : k = k'
      · rw [if_pos hk, if_pos hk]
      · rw [if_neg hk, if_neg hk]
        simp [OrderedMap.get, he, hk]
    · rw [if_pos (by simpa using he)]
      by_cases he' : e.1 = k'
      · have hne : k ≠ k' := fun h => he (he'.trans h.symm)
        simp [OrderedMap.get, he', hne]
      · have hskip : ∀ rest : List (Text × β), OrderedMap.get (· == ·) (e :: rest) k' =
            OrderedMap.get (· == ·) rest k' := fun rest => by simp [OrderedMap.get, he']
        rw [hskip, hskip]
        exact ih

/-- Whatever is removed from a map, the other keys hold what they held. -/
theorem get_removeAll {β : Type} (keys : List Text) (entries : List (Text × β)) (k : Text) :
    OrderedMap.get (· == ·) (keys.foldl (OrderedMap.remove (· == ·)) entries) k =
      if k ∈ keys then none else OrderedMap.get (· == ·) entries k := by
  induction keys generalizing entries with
  | nil => simp
  | cons key keys ih =>
    rw [List.foldl_cons, ih, get_remove]
    by_cases hk : key = k
    · simp [hk]
    · simp [hk, Ne.symm hk]

theorem distinct_removeAll {β : Type} (keys : List Text) {entries : List (Text × β)}
    (h : OrderedMap.Distinct (· == ·) entries) :
    OrderedMap.Distinct (· == ·) (keys.foldl (OrderedMap.remove (· == ·)) entries) := by
  induction keys generalizing entries with
  | nil => exact h
  | cons key keys ih => exact ih (h.filter _)

theorem mem_iff_get {β : Type} {entries : List (Text × β)}
    (h : OrderedMap.Distinct (· == ·) entries) {k : Text} {v : β} :
    (k, v) ∈ entries ↔ OrderedMap.get (· == ·) entries k = some v := by
  constructor
  · exact fun hmem => h.get_mem hmem (beq_self_eq_true k)
  · intro hget
    obtain ⟨e, hmem, hkey, rfl⟩ := OrderedMap.mem_of_get hget
    rw [← eq_of_beq hkey]
    exact hmem

/-- What holds of a jar after some events. -/
structure Holds (lower : Text → Text) (events : List Event) (jar : Jar) (now : ℚ) : Prop where
  distinct : OrderedMap.Distinct (· == ·) jar
  stored : ∀ k entry, OrderedMap.get (· == ·) jar k = some entry →
    ∃ e domain, latest lower events k = some e ∧
      acceptedDomain lower e.cookie e.host = some domain ∧ entry = e.entry domain
  gone : ∀ k e, latest lower events k = some e → OrderedMap.get (· == ·) jar k = none →
    e.cookie.isExpired now = true
  past : ∀ e ∈ events, e.time ≤ now

variable {lower : Text → Text} {events : List Event} {jar : Jar} {now : ℚ}

theorem latest_cons (e : Event) (k : Text) : latest lower (e :: events) k =
    if e.key lower = some k then some e else latest lower events k := by
  rw [latest, List.find?_cons]
  by_cases hk : e.key lower = some k
  · rw [if_pos hk, hk, beq_self_eq_true]
  · rw [if_neg hk, beq_false_of_ne hk]
    rfl

theorem Holds.unexpired (hholds : Holds lower events jar now) {time : ℚ} (htime : now ≤ time) :
    Holds lower events (unexpired jar time) time := by
  have hget : ∀ k, OrderedMap.get (· == ·) (Cookies.unexpired jar time) k =
      (OrderedMap.get (· == ·) jar k).filter fun entry => !entry.cookie.isExpired time := by
    intro k
    rw [Cookies.unexpired, get_removeAll]
    cases hk : OrderedMap.get (· == ·) jar k with
    | none => simp
    | some entry =>
      have hmem := (mem_iff_get hholds.distinct).2 hk
      cases hexpired : entry.cookie.isExpired time with
      | true =>
        rw [if_pos (List.mem_map.2 ⟨(k, entry), List.mem_filter.2 ⟨hmem, hexpired⟩, rfl⟩), Option.filter_some,
          hexpired]
        rfl
      | false =>
        rw [if_neg, Option.filter_some, hexpired]
        · rfl
        · intro hin
          obtain ⟨⟨k', other⟩, hother, rfl⟩ := List.mem_map.1 hin
          obtain ⟨hother, hgone⟩ := List.mem_filter.1 hother
          have hsame := (mem_iff_get hholds.distinct).1 hother
          rw [hk] at hsame
          obtain rfl := Option.some.inj hsame
          rw [hexpired] at hgone
          cases hgone
  refine ⟨distinct_removeAll _ hholds.distinct, fun k entry h => ?_, fun k e hlatest h => ?_,
    fun e hmem => (hholds.past e hmem).trans htime⟩
  · rw [hget, Option.filter_eq_some_iff] at h
    exact hholds.stored k entry h.1
  · rw [hget] at h
    cases hk : OrderedMap.get (· == ·) jar k with
    | none => exact isExpired_mono htime (hholds.gone k e hlatest hk)
    | some entry =>
      obtain ⟨e', domain, hlatest', -, rfl⟩ := hholds.stored k entry hk
      rw [hlatest] at hlatest'
      obtain rfl := Option.some.inj hlatest'
      rw [hk] at h
      simp only [Option.filter_some, Bool.not_eq_eq_eq_not, Bool.not_true, ite_eq_right_iff,
        reduceCtorEq, imp_false, Bool.not_eq_false] at h
      exact h

theorem Holds.store (hholds : Holds lower events jar now) (e : Event) (htime : now ≤ e.time) :
    Holds lower (e :: events) (store lower jar e.cookie e.host e.requestPath e.time).1 e.time := by
  have hpast : ∀ other ∈ e :: events, other.time ≤ e.time := by
    intro other hmem
    rcases List.mem_cons.1 hmem with rfl | hmem
    · exact le_refl _
    · exact (hholds.past other hmem).trans htime
  rw [Cookies.store]
  cases hdomain : acceptedDomain lower e.cookie e.host with
  | none =>
    have hlatest : ∀ k, latest lower (e :: events) k = latest lower events k := fun k => by
      rw [latest_cons, if_neg]
      simp [Event.key, Event.place, hdomain]
    refine ⟨hholds.distinct, fun k entry h => ?_, fun k other h hnone => ?_, hpast⟩
    · rw [hlatest]
      exact hholds.stored k entry h
    · rw [hlatest] at h
      exact isExpired_mono htime (hholds.gone k other h hnone)
  | some domain =>
    have hkey : e.key lower =
        some (keyText domain (acceptedPath e.cookie e.requestPath) e.cookie.name) := by
      simp [Event.key, Event.place, hdomain]
    simp only
    generalize keyText domain (acceptedPath e.cookie e.requestPath) e.cookie.name = key at hkey
    have hlatest : ∀ k, latest lower (e :: events) k =
        if key = k then some e else latest lower events k := fun k => by
      simp only [latest_cons, hkey, Option.some.injEq]
    split
    · next hexpired =>
      refine ⟨hholds.distinct.filter _, fun k entry h => ?_, fun k other h hnone => ?_, hpast⟩
      · rw [get_remove] at h
        split at h
        · cases h
        · next hne =>
          rw [hlatest, if_neg hne]
          exact hholds.stored k entry h
      · rw [hlatest] at h
        rw [get_remove] at hnone
        split at h
        · obtain rfl := Option.some.inj h
          exact hexpired
        · next hne =>
          rw [if_neg hne] at hnone
          exact isExpired_mono htime (hholds.gone k other h hnone)
    · refine ⟨hholds.distinct.put, fun k entry h => ?_, fun k other h hnone => ?_, hpast⟩
      · rw [OrderedMap.get_put] at h
        rw [hlatest]
        by_cases hk : key = k
        · rw [if_pos (by simpa using hk)] at h
          rw [if_pos hk]
          exact ⟨e, domain, rfl, hdomain, (Option.some.inj h).symm⟩
        · rw [if_neg (by simpa using hk)] at h
          rw [if_neg hk]
          exact hholds.stored k entry h
      · rw [OrderedMap.get_put] at hnone
        rw [hlatest] at h
        by_cases hk : key = k
        · rw [if_pos (by simpa using hk)] at hnone
          cases hnone
        · rw [if_neg (by simpa using hk)] at hnone
          rw [if_neg hk] at h
          exact isExpired_mono htime (hholds.gone k other h hnone)

/-- The jar of every run holds the latest of what was stored. -/
theorem Run.holds (hrun : Run lower events jar now) : Holds lower events jar now := by
  induction hrun with
  | start now =>
    exact ⟨.nil, fun k entry h => (by cases h), fun k e h => (by cases h), fun e h => (by cases h)⟩
  | store e _ htime ih => exact ih.store e htime
  | request host path secure time _ htime ih => exact ih.unexpired htime

/-- No cookie comes before one of a shorter path. -/
def ByPath (cookies : List Cookie) : Prop :=
  cookies.Pairwise fun a b => a.pathText.length ≤ b.pathText.length

theorem mem_place {c x : Cookie} {cookies : List Cookie} :
    x ∈ place c cookies ↔ x = c ∨ x ∈ cookies := by
  induction cookies with
  | nil => simp [place]
  | cons other rest ih =>
    rw [place]
    split
    · exact List.mem_cons
    · rw [List.mem_cons, ih, List.mem_cons]
      exact or_left_comm

theorem ByPath.place {cookies : List Cookie} (h : ByPath cookies) (c : Cookie) :
    ByPath (place c cookies) := by
  induction cookies with
  | nil => exact List.pairwise_singleton _ _
  | cons other rest ih =>
    obtain ⟨hother, hrest⟩ := List.pairwise_cons.1 h
    rw [Cookies.place]
    split
    · next hlt =>
      refine List.pairwise_cons.2 ⟨fun x hx => ?_, h⟩
      rcases List.mem_cons.1 hx with rfl | hx
      · exact Nat.le_of_lt hlt
      · exact Nat.le_trans (Nat.le_of_lt hlt) (hother x hx)
    · next hle =>
      refine List.pairwise_cons.2 ⟨fun x hx => ?_, ih hrest⟩
      rcases mem_place.1 hx with rfl | hx
      · exact Nat.le_of_not_lt hle
      · exact hother x hx

/-- Placing cookies one after another keeps them all, by path. -/
theorem placed_spec (cookies ordered : List Cookie) (h : ByPath ordered) :
    ByPath (cookies.foldl (fun ordered c => place c ordered) ordered) ∧
      ∀ x, x ∈ cookies.foldl (fun ordered c => place c ordered) ordered ↔
        x ∈ cookies ∨ x ∈ ordered := by
  induction cookies generalizing ordered with
  | nil => exact ⟨h, fun x => by simp⟩
  | cons c cookies ih =>
    obtain ⟨hsorted, hmem⟩ := ih (place c ordered) (h.place c)
    refine ⟨hsorted, fun x => ?_⟩
    rw [List.foldl_cons, hmem, mem_place, List.mem_cons]
    tauto

/-- What a name has is the value of a cookie of that name whose path is longest. -/
theorem named_spec {cookies : List Cookie} (h : ByPath cookies) (name : Text) :
    (∀ value, OrderedMap.get (· == ·) (named cookies) name = some value →
      ∃ c ∈ cookies, c.name = name ∧ c.value = value ∧
        ∀ other ∈ cookies, other.name = name → other.pathText.length ≤ c.pathText.length) ∧
    (OrderedMap.get (· == ·) (named cookies) name = none → ∀ c ∈ cookies, c.name ≠ name) := by
  induction cookies using List.reverseRecOn with
  | nil => exact ⟨fun value hvalue => (by cases hvalue), fun _ c hc => (by cases hc)⟩
  | append_singleton cookies last ih =>
    obtain ⟨hfront, -, hlast⟩ := List.pairwise_append.1 h
    obtain ⟨hsome, hnone⟩ := ih hfront
    have hnamed : named (cookies ++ [last]) =
        OrderedMap.put (· == ·) (named cookies) last.name last.value := by
      rw [named, List.foldl_append]
      rfl
    rw [hnamed, OrderedMap.get_put]
    by_cases hname : last.name = name
    · rw [if_pos (by simpa using hname)]
      refine ⟨fun value hvalue => ⟨last, by simp, hname, Option.some.inj hvalue, ?_⟩, fun h => ?_⟩
      · intro other hother _
        rcases List.mem_append.1 hother with hother | hother
        · exact hlast other hother last List.mem_cons_self
        · rw [List.mem_singleton.1 hother]
      · cases h
    · rw [if_neg (by simpa using hname)]
      refine ⟨fun value hvalue => ?_, fun h c hc => ?_⟩
      · obtain ⟨c, hc, hcname, hcvalue, hlongest⟩ := hsome value hvalue
        refine ⟨c, List.mem_append_left _ hc, hcname, hcvalue, fun other hother honame => ?_⟩
        rcases List.mem_append.1 hother with hother | hother
        · exact hlongest other hother honame
        · rw [List.mem_singleton.1 hother] at honame
          exact absurd honame hname
      · rcases List.mem_append.1 hc with hc | hc
        · exact hnone h c hc
        · rw [List.mem_singleton.1 hc]
          exact hname

end Zuri.Cookies
