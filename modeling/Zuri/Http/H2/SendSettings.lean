import Zuri.Http.H2.SendInv

/-!
SETTINGS. The settings of a frame are applied one by one in the order of their first
occurrence, each with its last value; together they move every window by what the
initial window has moved.
-/

namespace Zuri.Http.H2

open Frames Http2Connection Transition

def settingIn (identifier : Nat) : List (Nat × Nat) → Option Nat
  | [] => none
  | entry :: rest => if entry.1 = identifier then some entry.2 else settingIn identifier rest

theorem settingIn_absent {identifier : Nat} {values : List (Nat × Nat)}
    (h : identifier ∉ values.map Prod.fst) : settingIn identifier values = none := by
  induction values with
  | nil => rfl
  | cons entry rest ih =>
      have hne : entry.1 ≠ identifier := by
        intro heq
        exact h (heq ▸ List.mem_cons_self)
      rw [settingIn, if_neg hne]
      exact ih fun hin => h (List.mem_cons_of_mem _ hin)

theorem settingIn_putSetting (identifier other value : Nat) (values : List (Nat × Nat)) :
    settingIn identifier (putSetting values other value) =
      if other = identifier then some value else settingIn identifier values := by
  induction values with
  | nil => rfl
  | cons entry rest ih =>
      simp only [putSetting]
      by_cases hsame : entry.1 = other
      · rw [if_pos hsame]
        by_cases hid : other = identifier
        · simp [settingIn, hid]
        · simp [settingIn, hid, hsame]
      · rw [if_neg hsame]
        by_cases hid : entry.1 = identifier
        · have hother : other ≠ identifier := fun h => hsame (hid.trans h.symm)
          simp [settingIn, hid, hother]
        · simp only [settingIn, if_neg hid, ih]

theorem keys_putSetting (values : List (Nat × Nat)) (identifier value : Nat)
    (h : (values.map Prod.fst).Nodup) :
    ((putSetting values identifier value).map Prod.fst).Nodup ∧
      ∀ key ∈ (putSetting values identifier value).map Prod.fst,
        key = identifier ∨ key ∈ values.map Prod.fst := by
  induction values with
  | nil => simp [putSetting]
  | cons entry rest ih =>
      simp only [putSetting]
      obtain ⟨hfresh, hrest⟩ := List.nodup_cons.mp h
      by_cases hsame : entry.1 = identifier
      · rw [if_pos hsame]
        subst hsame
        exact ⟨h, fun key hk => .inr hk⟩
      · rw [if_neg hsame]
        obtain ⟨hnodup, hkeys⟩ := ih hrest
        refine ⟨List.nodup_cons.mpr ⟨?_, hnodup⟩, ?_⟩
        · intro hin
          rcases hkeys _ hin with heq | hin
          · exact hsame heq
          · exact hfresh hin
        · intro key hk
          rcases List.mem_cons.mp hk with rfl | hk
          · exact .inr List.mem_cons_self
          · rcases hkeys key hk with heq | hin
            · exact .inl heq
            · exact .inr (List.mem_cons_of_mem _ hin)

theorem decodeEntries_settings (payload : List UInt8) (values : List (Nat × Nat))
    (h : (values.map Prod.fst).Nodup) :
    ((decodeEntries payload values).map Prod.fst).Nodup ∧
      ∀ identifier, settingIn identifier (decodeEntries payload values) =
        (settingOf identifier payload).or (settingIn identifier values) := by
  induction payload, values using decodeEntries.induct with
  | case1 a b c d e f rest values ih =>
      obtain ⟨hnodup, hvalues⟩ := ih (keys_putSetting values _ _ h).1
      refine ⟨hnodup, ?_⟩
      intro identifier
      rw [decodeEntries, hvalues, settingIn_putSetting, settingOf]
      cases settingOf identifier rest with
      | some value => rfl
      | none =>
          by_cases hid : (a.toNat <<< 8) ||| b.toNat = identifier
          · simp [hid]
          · simp [hid]
  | case2 payload values hshort =>
      have hnone : ∀ identifier, settingOf identifier payload = none := by
        intro identifier
        unfold settingOf
        split
        · rename_i a b c d e f rest
          exact absurd rfl (hshort a b c d e f rest)
        · rfl
      have hsame : decodeEntries payload values = values := by
        unfold decodeEntries
        split
        · rename_i a b c d e f rest
          exact absurd rfl (hshort a b c d e f rest)
        · rfl
      rw [hsame]
      exact ⟨h, fun identifier => by rw [hnone]; rfl⟩

/-- Every window of a stream has moved by as much as the initial window. -/
structure Shifts (c d : Http2Connection) : Prop extends SameStreams c d where
  sendWindow : d.sendWindow = c.sendWindow
  data : ∀ object, (d.objects object).data = (c.objects object).data
  window : ∀ entry ∈ c.streams, (d.objects entry.2).sendWindow =
    (c.objects entry.2).sendWindow + (d.peerInitialWindow - c.peerInitialWindow)
  log : d.log = c.log

theorem Shifts.refl (c : Http2Connection) : Shifts c c where
  toSameStreams := .refl c
  sendWindow := rfl
  data := fun _ => rfl
  window := fun _ _ => by omega
  log := rfl

theorem Shifts.trans {c d e : Http2Connection} (h : Shifts c d) (k : Shifts d e) :
    Shifts c e where
  toSameStreams := h.toSameStreams.trans k.toSameStreams
  sendWindow := k.sendWindow.trans h.sendWindow
  data := fun object => (k.data object).trans (h.data object)
  window := by
    intro entry he
    have hfirst := h.window entry he
    have hmore := k.window entry (h.streams ▸ he)
    omega
  log := k.log.trans h.log

theorem shift_entries (entries : List (Nat × Nat)) (c : Http2Connection) (delta : Int)
    (hnodup : (entries.map Prod.snd).Nodup) :
    let d := entries.foldl (fun c entry => c.modify entry.2 fun stream =>
      { stream with sendWindow := stream.sendWindow + delta }) c
    SameStreams c d ∧ d.sendWindow = c.sendWindow ∧
      d.peerInitialWindow = c.peerInitialWindow ∧ d.log = c.log ∧
      (∀ object, (d.objects object).data = (c.objects object).data) ∧
      ∀ object, (d.objects object).sendWindow =
        (c.objects object).sendWindow + if object ∈ entries.map Prod.snd then delta else 0 := by
  induction entries generalizing c with
  | nil => exact ⟨.refl c, rfl, rfl, rfl, fun _ => rfl, fun _ => by simp⟩
  | cons entry entries ih =>
      obtain ⟨hfresh, hrest⟩ := List.nodup_cons.mp hnodup
      obtain ⟨hsame, hconn, hinitial, hlog, hdata, hwindow⟩ :=
        ih (c.modify entry.2 fun stream =>
          { stream with sendWindow := stream.sendWindow + delta }) hrest
      refine ⟨(modify_sameStreams c entry.2 _ rfl).trans hsame, hconn, hinitial, hlog, ?_, ?_⟩
      · intro object
        rw [List.foldl_cons, hdata]
        by_cases ho : object = entry.2
        · rw [ho, modify_objects]
        · rw [modify_objects_ne c entry.2 object _ ho]
      · intro object
        rw [List.foldl_cons, hwindow]
        by_cases ho : object = entry.2
        · rw [ho, modify_objects]
          simp only [List.map_cons, List.mem_cons, true_or, if_true]
          rw [if_neg hfresh]
          omega
        · rw [modify_objects_ne c entry.2 object _ ho]
          simp only [List.map_cons, List.mem_cons, ho, false_or]

theorem shiftWindows_shifts (c : Http2Connection) (initial : Int)
    (hnodup : (c.streams.map Prod.snd).Nodup) :
    Shifts c ({ c with peerInitialWindow := initial }.shiftWindows
      (initial - c.peerInitialWindow)) ∧
    ({ c with peerInitialWindow := initial }.shiftWindows
      (initial - c.peerInitialWindow)).peerInitialWindow = initial := by
  obtain ⟨hsame, hconn, hinitial, hlog, hdata, hwindow⟩ := shift_entries c.streams
    { c with peerInitialWindow := initial } (initial - c.peerInitialWindow) hnodup
  refine ⟨?_, hinitial⟩
  exact
    { isServer := hsame.isServer
      maxBodySize := hsame.maxBodySize
      goingAway := hsame.goingAway
      nextObject := hsame.nextObject
      streams := hsame.streams
      pendingHeaders := hsame.pendingHeaders
      ready := hsame.ready
      feeding := hsame.feeding
      lastStreamId := hsame.lastStreamId
      id := hsame.id
      sendWindow := hconn
      data := hdata
      window := by
        intro entry he
        have hmem : entry.2 ∈ c.streams.map Prod.snd := List.mem_map_of_mem he
        unfold shiftWindows
        rw [hwindow, if_pos hmem, hinitial]
      log := hlog }

theorem applySetting_true {c d : Http2Connection} {identifier value : Nat}
    (hnodup : (c.streams.map Prod.snd).Nodup)
    (h : c.applySetting identifier value = (d, true)) :
    Shifts c d ∧
      if identifier = SETTINGS_INITIAL_WINDOW_SIZE then
        d.peerInitialWindow = value ∧ value ≤ 2147483647
      else d.peerInitialWindow = c.peerInitialWindow := by
  have hkeep : ∀ (peerMaxFrame peerMaxConcurrent encoderCapacity : Nat),
      Shifts c { c with
        peerMaxFrame := peerMaxFrame, peerMaxConcurrent := peerMaxConcurrent,
        encoderCapacity := encoderCapacity } := by
    intro peerMaxFrame peerMaxConcurrent encoderCapacity
    exact ⟨⟨rfl, rfl, rfl, rfl, rfl, rfl, rfl, rfl, rfl, fun _ => rfl⟩, rfl, fun _ => rfl,
      fun _ _ => by simp only; omega, rfl⟩
  unfold applySetting at h
  by_cases hframe : identifier = SETTINGS_MAX_FRAME_SIZE
  · rw [if_pos hframe] at h
    split at h
    · cases h
    · cases h
      rw [if_neg (by rw [hframe]; decide)]
      exact ⟨hkeep value c.peerMaxConcurrent c.encoderCapacity, rfl⟩
  · rw [if_neg hframe] at h
    by_cases hinitial : identifier = SETTINGS_INITIAL_WINDOW_SIZE
    · rw [if_pos hinitial] at h ⊢
      split at h
      · cases h
      · rename_i hfits
        cases h
        obtain ⟨hshifts, heq⟩ := shiftWindows_shifts c value hnodup
        exact ⟨hshifts, heq, Nat.not_lt.mp hfits⟩
    · rw [if_neg hinitial] at h ⊢
      split at h
      · cases h
        exact ⟨hkeep c.peerMaxFrame value c.encoderCapacity, rfl⟩
      · split at h
        · cases h
          exact ⟨hkeep c.peerMaxFrame c.peerMaxConcurrent value, rfl⟩
        · cases h
          exact ⟨.refl _, rfl⟩

theorem applySetting_false {c d : Http2Connection} {identifier value : Nat}
    (hgoing : c.goingAway = false) (h : c.applySetting identifier value = (d, false)) :
    Emits c d fun ledger => { ledger with dead := true } := by
  unfold applySetting at h
  split at h
  · split at h
    · cases h
      exact emits_fail c _ _ hgoing
    · cases h
  · split at h
    · split at h
      · cases h
        exact emits_fail c _ _ hgoing
      · cases h
    · split at h
      · cases h
      · split at h <;> cases h

theorem applySettings_true (values : List (Nat × Nat)) {c d : Http2Connection}
    (hnodup : (c.streams.map Prod.snd).Nodup) (hkeys : (values.map Prod.fst).Nodup)
    (h : applySettings values c = (d, true)) :
    Shifts c d ∧
      (settingIn SETTINGS_INITIAL_WINDOW_SIZE values = none →
        d.peerInitialWindow = c.peerInitialWindow) ∧
      ∀ value, settingIn SETTINGS_INITIAL_WINDOW_SIZE values = some value →
        d.peerInitialWindow = value ∧ value ≤ 2147483647 := by
  induction values generalizing c with
  | nil =>
      cases h
      refine ⟨.refl _, fun _ => rfl, fun value hv => ?_⟩
      cases hv
  | cons entry values ih =>
      obtain ⟨hfresh, hrest⟩ := List.nodup_cons.mp hkeys
      unfold applySettings at h
      split at h
      · rename_i mid heq
        obtain ⟨hone, hvalue⟩ := applySetting_true hnodup heq
        obtain ⟨hmore, hnone, hsome⟩ := ih (by rw [hone.streams]; exact hnodup) hrest h
        refine ⟨hone.trans hmore, ?_, ?_⟩
        · intro hin
          by_cases hid : entry.1 = SETTINGS_INITIAL_WINDOW_SIZE
          · simp [settingIn, hid] at hin
          · rw [if_neg hid] at hvalue
            rw [settingIn, if_neg hid] at hin
            exact (hnone hin).trans hvalue
        · intro value hin
          by_cases hid : entry.1 = SETTINGS_INITIAL_WINDOW_SIZE
          · rw [if_pos hid] at hvalue
            rw [settingIn, if_pos hid] at hin
            cases hin
            have habsent := settingIn_absent (hid ▸ hfresh)
            rw [hnone habsent]
            exact hvalue
          · rw [settingIn, if_neg hid] at hin
            exact hsome value hin
      · cases h

theorem shiftWindows_log (c : Http2Connection) (delta : Int) :
    (c.shiftWindows delta).log = c.log ∧ (c.shiftWindows delta).goingAway = c.goingAway := by
  unfold shiftWindows
  generalize c.streams = entries
  induction entries generalizing c with
  | nil => exact ⟨rfl, rfl⟩
  | cons entry entries ih => exact ih _

theorem applySetting_log {c d : Http2Connection} {identifier value : Nat}
    (h : c.applySetting identifier value = (d, true)) :
    d.log = c.log ∧ d.goingAway = c.goingAway := by
  unfold applySetting at h
  split at h
  · split at h
    · cases h
    · cases h
      exact ⟨rfl, rfl⟩
  · split at h
    · split at h
      · cases h
      · cases h
        exact shiftWindows_log _ _
    · split at h
      · cases h
        exact ⟨rfl, rfl⟩
      · split at h
        · cases h
          exact ⟨rfl, rfl⟩
        · cases h
          exact ⟨rfl, rfl⟩

theorem applySettings_false (values : List (Nat × Nat)) {c d : Http2Connection}
    (hgoing : c.goingAway = false) (h : applySettings values c = (d, false)) :
    Emits c d fun ledger => { ledger with dead := true } := by
  induction values generalizing c with
  | nil => cases h
  | cons entry values ih =>
      unfold applySettings at h
      split at h
      · rename_i mid heq
        obtain ⟨hlog, hsame⟩ := applySetting_log heq
        exact (Appends.same hlog).trans (ih (hsame.trans hgoing) h)
      · rename_i mid heq
        cases h
        exact applySetting_false hgoing heq

theorem applySettings_log (values : List (Nat × Nat)) {c d : Http2Connection}
    (h : applySettings values c = (d, true)) : d.log = c.log := by
  induction values generalizing c with
  | nil =>
      cases h
      rfl
  | cons entry values ih =>
      unfold applySettings at h
      split at h
      · rename_i mid heq
        exact (ih h).trans (applySetting_log heq).1
      · cases h

section Settings

variable {isServer : Bool} {maxBodySize : Nat} {ledger : SendLedger} {c d : Http2Connection}
  {writing : Option Nat}

theorem Sending.objects_nodup (h : Sending isServer maxBodySize ledger ⟨c, writing⟩) :
    (c.streams.map Prod.snd).Nodup := by
  have hkeys : c.streams.map Prod.fst =
      (c.streams.map Prod.snd).map fun object => (c.objects object).id := by
    rw [List.map_map]
    apply List.map_congr_left
    intro entry he
    exact (h.named entry he).1.symm
  have hnodup := h.keys
  simp only at hnodup
  rw [hkeys] at hnodup
  exact List.Nodup.of_map _ hnodup

theorem Sending.shifted (h : Sending isServer maxBodySize ledger ⟨c, writing⟩)
    (hshifts : Shifts c d) (hbounded : (ledger.shift d.peerInitialWindow).Bounded) :
    Sending isServer maxBodySize (ledger.shift d.peerInitialWindow) ⟨d, writing⟩ := by
  refine h.sameStreams hshifts.toSameStreams rfl rfl (h.bodies_of_data hshifts.data) ?_
  exact
    { initial := rfl
      conn := hshifts.sendWindow.trans h.kept.conn
      streams := by
        intro entry he
        have he := hshifts.streams ▸ he
        have hinitial := h.kept.initial
        simp only at hinitial
        rw [hshifts.window entry he]
        simp only [SendLedger.shift, h.kept.streams entry he, Option.map_some, hinitial]
      bounded := hbounded }

theorem Sending.unshifted (h : Sending isServer maxBodySize ledger ⟨c, writing⟩)
    (hshifts : Shifts c d) (hinitial : d.peerInitialWindow = c.peerInitialWindow) :
    Sending isServer maxBodySize ledger ⟨d, writing⟩ := by
  refine h.sameStreams hshifts.toSameStreams rfl rfl (h.bodies_of_data hshifts.data) ?_
  exact
    { initial := hinitial.trans h.kept.initial
      conn := hshifts.sendWindow.trans h.kept.conn
      streams := by
        intro entry he
        have he := hshifts.streams ▸ he
        rw [hshifts.window entry he, hinitial, Int.sub_self, Int.add_zero]
        exact h.kept.streams entry he
      bounded := h.kept.bounded }

end Settings

end Zuri.Http.H2
