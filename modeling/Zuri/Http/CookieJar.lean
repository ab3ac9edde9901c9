import Zuri.Coding.Separated
import Zuri.Http.CookieRuns

/-!
What a jar sends. A request has the cookies that were accepted and not replaced, that have not
outlived their age, and that may go to its host, its path and its scheme; of equal names one with
the longest path. A jar does so unless a positive `Max-Age` is outlived or an empty `Domain` is
taken for one.
-/

namespace Zuri.Cookies

section
variable (lower : Text → Text)

/-- An event was accepted, and no later one has its domain, path and name. -/
def Kept (events : List Event) (e : Event) : Prop :=
  ∃ later earlier, events = later ++ e :: earlier ∧ (e.place lower).isSome = true ∧
    ∀ other ∈ later, other.place lower ≠ e.place lower

/-- `Max-Age` counts from the store, and comes before `Expires`. -/
def Event.Outlived (e : Event) (now : ℚ) : Prop :=
  match e.cookie.maxAge with
  | some age => e.time + age ≤ now
  | none => ∃ time, e.cookie.expires = some time ∧ time ≤ now

/-- A cookie may go to the host of its domain, and to those below it if it names a domain. -/
def Event.Reaches (e : Event) (host : Text) : Prop :=
  ∃ domain, acceptedDomain lower e.cookie e.host = some domain ∧
    (lower host = domain ∨
      (∃ given, e.cookie.domain = some given ∧ given ≠ []) ∧ '.' :: domain <:+ lower host)

/-- A cookie's path is the root, the path of the request, or a directory above it. -/
def PathMatch (request path : Text) : Prop :=
  path = ['/'] ∨ request = path ∨ (path <+: request ∧ path.getLast? = some '/') ∨
    path ++ ['/'] <+: request

/-- A cookie that a request is to have. -/
structure Live (events : List Event) (now : ℚ) (host path : Text) (secure : Bool) (e : Event) :
    Prop where
  kept : Kept lower events e
  alive : ¬ e.Outlived now
  reaches : e.Reaches lower host
  path : PathMatch path e.path
  scheme : e.cookie.secure = true → secure = true

/-- What a request is to have under each name. -/
structure Right (events : List Event) (now : ℚ) (host path : Text) (secure : Bool)
    (result : List (Text × Text)) : Prop where
  sent : ∀ name value, OrderedMap.get (· == ·) result name = some value →
    ∃ e, Live lower events now host path secure e ∧ e.cookie.name = name ∧
      e.cookie.value = value ∧ ∀ other, Live lower events now host path secure other →
        other.cookie.name = name → other.path.length ≤ e.path.length
  missing : ∀ name, OrderedMap.get (· == ·) result name = none →
    ∀ e, Live lower events now host path secure e → e.cookie.name ≠ name

/-- No positive `Max-Age` of a kept cookie is outlived, and none with an empty `Domain` was set by
a host above the request's. -/
def Met (events : List Event) (now : ℚ) (host : Text) : Prop :=
  ∀ e, Kept lower events e →
    (∀ age, e.cookie.maxAge = some age → 0 < age → now < e.time + age) ∧
    (e.cookie.domain = some [] → ¬ '.' :: lower e.host <:+ lower host)

/-- No host has a tab, which stands between the parts of a key. -/
def Untabbed (events : List Event) : Prop := ∀ e ∈ events, '\t' ∉ lower e.host

end

variable {lower : Text → Text} {events : List Event} {jar : Jar} {now : ℚ}

theorem token_tab {name : Text} (htoken : isToken name = true) : '\t' ∉ name := by
  intro hmem
  rw [isToken, Bool.and_eq_true, List.all_eq_true] at htoken
  exact absurd (htoken.2 _ hmem) (by decide)

theorem domain_tab {cookie : Cookie} {host domain : Text} (hhost : '\t' ∉ lower host)
    (hdomain : acceptedDomain lower cookie host = some domain) : '\t' ∉ domain := by
  rw [acceptedDomain] at hdomain
  cases hgiven : cookie.domain with
  | none =>
    rw [hgiven] at hdomain
    exact Option.some.inj hdomain ▸ hhost
  | some given =>
    rw [hgiven] at hdomain
    simp only at hdomain
    split at hdomain
    · exact Option.some.inj hdomain ▸ hhost
    · split at hdomain
      · cases hdomain
      · next hallowed =>
        obtain rfl := Option.some.inj hdomain
        by_cases hsame : lower given = lower host
        · rw [hsame]
          exact hhost
        · have hsuffix : endsWithDot (lower host) (lower given) = true := by
            simpa [hsame] using hallowed
          rw [endsWithDot, List.isSuffixOf_iff_suffix] at hsuffix
          exact fun hmem => hhost (hsuffix.subset (List.mem_cons_of_mem _ hmem))

theorem keyText_inj {d d' p p' n n' : Text} (hd : '\t' ∉ d) (hd' : '\t' ∉ d') (hn : '\t' ∉ n)
    (hn' : '\t' ∉ n') (heq : keyText d p n = keyText d' p' n') : d = d' ∧ p = p' ∧ n = n' := by
  obtain ⟨hdomain, hrest⟩ := Separated.parts_inj hd hd' heq
  exact ⟨hdomain, Separated.parts_inj_right hn hn' hrest⟩

theorem Event.place_eq {e : Event} {domain : Text}
    (hdomain : acceptedDomain lower e.cookie e.host = some domain) :
    e.place lower = some (domain, e.path, e.cookie.name) := by
  rw [Event.place, hdomain]
  rfl

theorem Event.key_eq {e : Event} {domain : Text}
    (hdomain : acceptedDomain lower e.cookie e.host = some domain) :
    e.key lower = some (keyText domain e.path e.cookie.name) := by
  rw [Event.key, Event.place_eq hdomain]
  rfl

theorem place_of_key {e other : Event} (he : '\t' ∉ lower e.host)
    (hother : '\t' ∉ lower other.host) (hsome : (e.place lower).isSome = true)
    (heq : other.key lower = e.key lower) : other.place lower = e.place lower := by
  cases hdomain : acceptedDomain lower e.cookie e.host with
  | none => simp [Event.place, hdomain] at hsome
  | some domain =>
    cases hdomain' : acceptedDomain lower other.cookie other.host with
    | none =>
      rw [Event.key_eq hdomain, Event.key, Event.place, hdomain'] at heq
      cases heq
    | some domain' =>
      rw [Event.key_eq hdomain, Event.key_eq hdomain'] at heq
      obtain ⟨hd, hp, hn⟩ := keyText_inj (domain_tab hother hdomain') (domain_tab he hdomain)
        (token_tab other.cookie.token) (token_tab e.cookie.token) (Option.some.inj heq)
      rw [Event.place_eq hdomain, Event.place_eq hdomain', hd, hp, hn]

/-- The latest event of a key is kept. -/
theorem latest_kept {k : Text} {e : Event} (hlatest : latest lower events k = some e) :
    Kept lower events e ∧ e.key lower = some k := by
  obtain ⟨hkey, later, earlier, hsplit, hlater⟩ := List.find?_eq_some_iff_append.1 hlatest
  have hkey : e.key lower = some k := by simpa using hkey
  refine ⟨⟨later, earlier, hsplit, ?_, fun other hmem hplace => ?_⟩, hkey⟩
  · rw [Event.key] at hkey
    cases hplace : e.place lower with
    | none => rw [hplace] at hkey; cases hkey
    | some _ => rfl
  · have hnot := hlater other hmem
    rw [Event.key, hplace, ← Event.key, hkey] at hnot
    simp at hnot

/-- A kept event is the latest of its key. -/
theorem kept_latest (htabs : Untabbed lower events) {e : Event} (hkept : Kept lower events e)
    {k : Text} (hkey : e.key lower = some k) : latest lower events k = some e := by
  obtain ⟨later, earlier, rfl, hsome, hlater⟩ := hkept
  refine List.find?_eq_some_iff_append.2 ⟨by simpa using hkey, later, earlier, rfl, ?_⟩
  intro other hmem
  simp only [Bool.not_eq_eq_eq_not, Bool.not_true, beq_eq_false_iff_ne]
  intro hother
  exact hlater other hmem (place_of_key (htabs e (by simp)) (htabs other (by simp [hmem])) hsome
    (hother.trans hkey.symm))

theorem pathMatches_iff (request path : Text) :
    pathMatches request path = true ↔ PathMatch request path := by
  have hnext : path <+: request →
      (request[path.length]? = some '/' ↔ path ++ ['/'] <+: request) := by
    rintro ⟨rest, rfl⟩
    rw [List.prefix_append_right_inj, List.getElem?_append_right (Nat.le_refl _), Nat.sub_self]
    cases rest with
    | nil => simp
    | cons c rest => simp [eq_comm]
  have hshorter : path ++ ['/'] <+: request → path <+: request := (List.prefix_append _ _).trans
  rw [pathMatches, PathMatch]
  by_cases hroot : path = ['/']
  · simp [hroot]
  · by_cases hsame : request = path
    · simp [hsame]
    · by_cases hpre : path <+: request
      · by_cases hlast : path.getLast? = some '/'
        · simp [hroot, hsame, hpre, hlast]
        · simp [hroot, hsame, hpre, hlast, hnext hpre]
      · have hno : ¬ path ++ ['/'] <+: request := fun h => hpre (hshorter h)
        simp [hroot, hsame, hpre, hno]

theorem expired_iff {e : Event} (htime : e.time ≤ now)
    (hage : ∀ age, e.cookie.maxAge = some age → 0 < age → now < e.time + age) :
    e.cookie.isExpired now = true ↔ e.Outlived now := by
  rw [Cookie.isExpired, Event.Outlived]
  cases hmax : e.cookie.maxAge with
  | some age =>
    simp only [decide_eq_true_eq]
    constructor
    · intro h
      linarith
    · intro h
      by_contra hpos
      linarith [hage age hmax (not_le.1 hpos)]
  | none =>
    cases hexpires : e.cookie.expires with
    | some time => simp
    | none => simp

theorem expired_outlived {e : Event} (htime : e.time ≤ now)
    (hexpired : e.cookie.isExpired now = true) : e.Outlived now := by
  rw [Cookie.isExpired] at hexpired
  rw [Event.Outlived]
  cases hmax : e.cookie.maxAge with
  | some age =>
    simp only [hmax, decide_eq_true_eq] at hexpired ⊢
    linarith
  | none =>
    cases hexpires : e.cookie.expires with
    | some time =>
      simp only [hmax, hexpires, decide_eq_true_eq] at hexpired
      exact ⟨time, rfl, hexpired⟩
    | none => simp [hmax, hexpires] at hexpired

theorem domainMatches_iff {e : Event} {host domain : Text}
    (hdomain : acceptedDomain lower e.cookie e.host = some domain)
    (hempty : e.cookie.domain = some [] → ¬ '.' :: lower e.host <:+ lower host) :
    domainMatches (lower host) domain e.cookie.domain.isSome = true ↔ e.Reaches lower host := by
  rw [domainMatches, Event.Reaches]
  constructor
  · intro h
    refine ⟨domain, hdomain, ?_⟩
    split at h
    · next hsame => exact .inl hsame
    · split at h
      · cases h
      · next hgiven =>
        rw [endsWithDot, List.isSuffixOf_iff_suffix] at h
        cases hown : e.cookie.domain with
        | none => simp [hown] at hgiven
        | some given =>
          refine .inr ⟨⟨given, rfl, fun hnil => ?_⟩, h⟩
          subst hnil
          rw [acceptedDomain, hown] at hdomain
          obtain rfl := Option.some.inj hdomain
          exact hempty hown h
  · rintro ⟨domain', hdomain', hreach⟩
    rw [hdomain] at hdomain'
    obtain rfl := Option.some.inj hdomain'
    split
    · rfl
    · next hne =>
      obtain ⟨⟨given, hown, -⟩, hsuffix⟩ := hreach.resolve_left hne
      rw [if_neg (by simp [hown]), endsWithDot, List.isSuffixOf_iff_suffix]
      exact hsuffix

section Sent

variable (hholds : Holds lower events jar now) {time : ℚ} (htime : now ≤ time)
  (htabs : Untabbed lower events) {host path : Text} {secure : Bool}
  (hmet : Met lower events time host)
include hholds htime hmet

theorem matched_live {c : Cookie} (hmem : c ∈ matched lower jar host path secure time) :
    ∃ e, Live lower events time host path secure e ∧ c.name = e.cookie.name ∧
      c.value = e.cookie.value ∧ c.pathText = e.path := by
  obtain ⟨⟨k, entry⟩, hentry, rfl⟩ := List.mem_map.1 hmem
  obtain ⟨hstored, hpasses⟩ := List.mem_filter.1 hentry
  obtain ⟨e, domain, hlatest, hdomain, rfl⟩ :=
    hholds.stored k entry ((mem_iff_get hholds.distinct).1 hstored)
  obtain ⟨hkept, -⟩ := latest_kept hlatest
  obtain ⟨hage, hempty⟩ := hmet e hkept
  have hpast := (hholds.past e (List.mem_of_find?_eq_some hlatest)).trans htime
  simp only [Bool.and_eq_true, Bool.not_eq_true', Bool.and_eq_false_iff,
    Bool.not_eq_false'] at hpasses
  obtain ⟨⟨⟨hfresh, hhost⟩, hpath⟩, hscheme⟩ := hpasses
  refine ⟨e, ⟨hkept, fun houtlived => ?_, (domainMatches_iff hdomain hempty).1 hhost,
    (pathMatches_iff _ _).1 hpath, fun hsecure => ?_⟩, rfl, rfl, rfl⟩
  · have hexpired := (expired_iff hpast hage).2 houtlived
    rw [show e.cookie.isExpired time = false from hfresh] at hexpired
    cases hexpired
  · rcases hscheme with hplain | hscheme
    · rw [show e.cookie.secure = false from hplain] at hsecure
      cases hsecure
    · exact hscheme

include htabs in
theorem live_matched {e : Event} (hlive : Live lower events time host path secure e) :
    ∃ c ∈ matched lower jar host path secure time, c.name = e.cookie.name ∧
      c.value = e.cookie.value ∧ c.pathText = e.path := by
  obtain ⟨domain, hdomain, -⟩ := hlive.reaches
  obtain ⟨hage, hempty⟩ := hmet e hlive.kept
  have hlatest := kept_latest htabs hlive.kept (Event.key_eq hdomain)
  have hpast := (hholds.past e (List.mem_of_find?_eq_some hlatest)).trans htime
  have hfresh : ¬ e.cookie.isExpired time = true := fun hexpired =>
    hlive.alive (expired_outlived hpast hexpired)
  cases hget : OrderedMap.get (· == ·) jar (keyText domain e.path e.cookie.name) with
  | none =>
    exact absurd (isExpired_mono htime (hholds.gone _ e hlatest hget)) hfresh
  | some entry =>
    obtain ⟨e', domain', hlatest', hdomain', rfl⟩ := hholds.stored _ entry hget
    rw [hlatest] at hlatest'
    obtain rfl := Option.some.inj hlatest'
    rw [hdomain] at hdomain'
    obtain rfl := Option.some.inj hdomain'
    refine ⟨_, List.mem_map.2 ⟨_, List.mem_filter.2
      ⟨(mem_iff_get hholds.distinct).2 hget, ?_⟩, rfl⟩, rfl, rfl, rfl⟩
    simp only [Bool.and_eq_true, Bool.not_eq_true', Bool.and_eq_false_iff, Bool.not_eq_false']
    refine ⟨⟨⟨?_, (domainMatches_iff hdomain hempty).2 hlive.reaches⟩,
      (pathMatches_iff _ _).2 hlive.path⟩, ?_⟩
    · exact Bool.eq_false_iff.2 hfresh
    · cases hsecure : e.cookie.secure with
      | false => exact .inl hsecure
      | true => exact .inr (hlive.scheme hsecure)

end Sent

def session (name : Text) (htoken : isToken name = true) (maxAge : Option ℚ) : Cookie :=
  { name := name, value := ['1'], token := htoken, octets := by decide, maxAge := maxAge }

def login : Event := ⟨0, "a.test".toList, none, session ['s'] (by decide) (some 1)⟩

end Zuri.Cookies
