import Mathlib.Data.List.Induction
import Mathlib.Data.List.Pairwise
import Zuri.Libs.Migrate

/-!
What the record holds after any history of calls. Its rows stand in the order they were
applied; batches and calls agree in that order, and the rows of one batch ascend by version.
A rollback without options takes the batch of the highest version, which is the last run's
exactly where the highest version was applied by it.
-/

namespace Zuri.Migrate

/-- The migrations whose last body was `up`, with the calls that ran them, in the order they
ran. -/
def standing (deeds : List Deed) : List (Nat × Text) :=
  deeds.foldl (fun applied deed =>
    match deed with
    | .up call name => applied.filter (fun a => !(a.2 == name)) ++ [(call, name)]
    | .down _ name => applied.filter fun a => !(a.2 == name)) []

/-- The migrations applied by the most recent `up` that still has any applied, newest first. -/
def lastRun (deeds : List Deed) : List Text :=
  match (standing deeds).getLast? with
  | none => []
  | some last => (((standing deeds).filter fun a => a.1 == last.1).map Prod.snd).reverse

def lastDeed (deeds : List Deed) (name : Text) : Option Deed :=
  deeds.reverse.find? fun d => d.name == name

theorem standing_up (deeds : List Deed) (call : Nat) (name : Text) :
    standing (deeds ++ [.up call name]) =
      (standing deeds).filter (fun a => !(a.2 == name)) ++ [(call, name)] := by
  rw [standing, List.foldl_append]
  rfl

theorem standing_down (deeds : List Deed) (call : Nat) (name : Text) :
    standing (deeds ++ [.down call name]) =
      (standing deeds).filter fun a => !(a.2 == name) := by
  rw [standing, List.foldl_append]
  rfl

theorem lastDeed_snoc (deeds : List Deed) (deed : Deed) (name : Text) :
    lastDeed (deeds ++ [deed]) name =
      if deed.name = name then some deed else lastDeed deeds name := by
  rw [lastDeed, List.reverse_append, List.reverse_singleton, List.singleton_append,
    List.find?_cons]
  by_cases h : deed.name = name
  · rw [if_pos h, beq_iff_eq.mpr h]
  · rw [if_neg h, beq_eq_false_iff_ne.mpr h]
    rfl

/-- What stands is what ran up more recently than it ran down. -/
theorem mem_standing (deeds : List Deed) (call : Nat) (name : Text) :
    (call, name) ∈ standing deeds ↔ lastDeed deeds name = some (.up call name) := by
  induction deeds using List.reverseRecOn with
  | nil => simp [standing, lastDeed]
  | append_singleton deeds deed ih =>
      rw [lastDeed_snoc]
      cases deed with
      | up c n =>
          rw [standing_up, List.mem_append, List.mem_filter, ih, List.mem_singleton]
          by_cases hn : n = name
          · subst hn
            simp [Deed.name, eq_comm]
          · simp [Deed.name, hn, Ne.symm hn]
      | down c n =>
          rw [standing_down, List.mem_filter, ih]
          by_cases hn : n = name
          · subst hn
            simp [Deed.name]
          · simp [Deed.name, hn, Ne.symm hn]

/-- By version, then by name. -/
def pairLe (a b : Text × Text) : Prop := compareVersions a.1 a.2 b.1 b.2 ≤ 0

def nameLe (a b : Text) : Prop := pairLe (versionOf a, a) (versionOf b, b)

theorem pairLe_iff (a b : Text × Text) :
    pairLe a b ↔ ordering a.1 < ordering b.1 ∨ ordering a.1 = ordering b.1 ∧ a.2 ≤ b.2 := by
  unfold pairLe compareVersions
  rcases lt_trichotomy (ordering a.1) (ordering b.1) with hlt | heq | hgt
  · rw [Lexical.order_lt hlt, if_pos (by decide)]
    exact iff_of_true (by decide) (.inl hlt)
  · rw [heq, Lexical.order_self, if_neg (by decide), Lexical.order_nonpos]
    simp
  · rw [Lexical.order_gt hgt, if_pos (by decide)]
    refine iff_of_false (by decide) ?_
    rintro (hlt | ⟨heq, -⟩)
    · exact lt_asymm hgt hlt
    · exact absurd heq hgt.ne'

theorem pairLe_total (a b : Text × Text) : pairLe a b ∨ pairLe b a := by
  simp only [pairLe_iff]
  rcases lt_trichotomy (ordering a.1) (ordering b.1) with hlt | heq | hgt
  · exact .inl (.inl hlt)
  · exact (le_total a.2 b.2).imp (fun h => .inr ⟨heq, h⟩) fun h => .inr ⟨heq.symm, h⟩
  · exact .inr (.inl hgt)

theorem pairLe_trans {a b c : Text × Text} (hab : pairLe a b) (hbc : pairLe b c) :
    pairLe a c := by
  simp only [pairLe_iff] at hab hbc ⊢
  rcases hab with hab | ⟨hab, hle⟩
  · rcases hbc with hbc | ⟨hbc, -⟩
    · exact .inl (hab.trans hbc)
    · exact .inl (hbc ▸ hab)
  · rcases hbc with hbc | ⟨hbc, hle'⟩
    · exact .inl (hab ▸ hbc)
    · exact .inr ⟨hab.trans hbc, hle.trans hle'⟩

theorem nameLe_antisymm {a b : Text} (hab : nameLe a b) (hba : nameLe b a) : a = b := by
  simp only [nameLe, pairLe_iff] at hab hba
  rcases hab with hab | ⟨heq, hle⟩
  · rcases hba with hba | ⟨hba, -⟩
    · exact absurd hab (lt_asymm hba)
    · exact absurd hba hab.ne'
  · rcases hba with hba | ⟨-, hle'⟩
    · exact absurd heq hba.ne'
    · exact le_antisymm hle hle'

theorem rowLe_iff (a b : Row) : rowLe a b = true ↔ nameLe a.name b.name := by
  rw [rowLe, decide_eq_true_eq]
  exact Iff.rfl

theorem applied_sorted (db : Database) :
    db.applied.Pairwise fun a b => nameLe a.name b.name := by
  have h := @MergeSort.sort_sorted Row rowLe
    (fun a b => by rw [rowLe_iff, rowLe_iff]; exact pairLe_total _ _)
    (fun a b c => by rw [rowLe_iff, rowLe_iff, rowLe_iff]; exact pairLe_trans) db.rows
  exact h.imp fun h => (rowLe_iff _ _).mp h

theorem applied_perm (db : Database) : db.applied.Perm db.rows := MergeSort.sort_perm db.rows

/-- One row was applied before another: by an earlier call in an earlier batch, or by the same
call in the same batch and with a lower version. -/
def Before (a b : Row × Nat) : Prop :=
  (a.1.batch < b.1.batch ∧ a.2 < b.2) ∨
    (a.1.batch = b.1.batch ∧ a.2 = b.2 ∧ nameLe a.1.name b.1.name)

/-- The rows with the calls that applied them, as they were applied. -/
structure Holds (db : Database) (entries : List (Row × Nat)) : Prop where
  rows : db.rows = entries.map Prod.fst
  standing : standing db.deeds = entries.map fun e => (e.2, e.1.name)
  before : entries.Pairwise Before
  names : (entries.map fun e => e.1.name).Nodup
  calls : ∀ e ∈ entries, e.2 ≤ db.calls

namespace Holds

variable {db : Database} {entries : List (Row × Nat)}

theorem recorded_iff (h : Holds db entries) (name : Text) :
    db.recorded name = true ↔ ∃ e ∈ entries, e.1.name = name := by
  rw [Database.recorded, List.any_eq_true, h.rows]
  simp only [List.mem_map, beq_iff_eq, exists_exists_and_eq_and]

theorem not_recorded (h : Holds db entries) {name : Text} (hno : db.recorded name = false)
    {e : Row × Nat} (he : e ∈ entries) : e.1.name ≠ name := by
  intro hname
  rw [(h.recorded_iff name).mpr ⟨e, he, hname⟩] at hno
  cases hno

/-- A row applied after all the others. -/
theorem snoc (h : Holds db entries) {row : Row} (hno : db.recorded row.name = false)
    (hbefore : ∀ e ∈ entries, Before e (row, db.calls)) :
    Holds { db with rows := db.rows ++ [row], deeds := db.deeds ++ [.up db.calls row.name] }
      (entries ++ [(row, db.calls)]) := by
  have hkeep : (entries.map fun e => (e.2, e.1.name)).filter (fun a => !(a.2 == row.name)) =
      entries.map fun e => (e.2, e.1.name) := by
    apply List.filter_eq_self.mpr
    intro a ha
    obtain ⟨e, he, rfl⟩ := List.mem_map.mp ha
    simpa using h.not_recorded hno he
  refine ⟨?_, ?_, ?_, ?_, ?_⟩
  · simp [h.rows]
  · rw [standing_up, h.standing, hkeep, List.map_append]
    rfl
  · refine List.pairwise_append.mpr ⟨h.before, List.pairwise_singleton _ _, fun a ha b hb => ?_⟩
    rw [List.mem_singleton.mp hb]
    exact hbefore a ha
  · rw [List.map_append, List.nodup_append]
    refine ⟨h.names, List.nodup_singleton _, fun a ha b hb => ?_⟩
    obtain ⟨e, he, rfl⟩ := List.mem_map.mp ha
    rw [List.mem_singleton.mp hb]
    exact h.not_recorded hno he
  · intro e he
    rcases List.mem_append.mp he with he | he
    · exact h.calls e he
    · rw [List.mem_singleton.mp he]

theorem remove (h : Holds db entries) (name : Text) :
    Holds
      { db with
        rows := db.rows.filter fun r => !(r.name == name)
        deeds := db.deeds ++ [.down db.calls name] }
      (entries.filter fun e => !(e.1.name == name)) := by
  refine ⟨?_, ?_, h.before.filter _, ?_, fun e he => h.calls e (List.mem_filter.mp he).1⟩
  · rw [h.rows, List.filter_map]
    rfl
  · rw [standing_down, h.standing, List.filter_map]
    rfl
  · exact h.names.sublist ((List.filter_sublist).map _)

theorem latestBatch_le (h : Holds db entries) {e : Row × Nat} (he : e ∈ entries) :
    e.1.batch ≤ db.latestBatch := by
  have hmem : e.1.batch ∈ db.rows.map Row.batch := by
    rw [h.rows, List.map_map]
    exact List.mem_map_of_mem (f := Row.batch ∘ Prod.fst) he
  have hle : ∀ (batches : List Nat) (start b : Nat), b ≤ start ∨ b ∈ batches →
      b ≤ batches.foldl max start := by
    intro batches
    induction batches with
    | nil =>
        rintro start b (hb | hb)
        · exact hb
        · cases hb
    | cons c batches ih =>
        rintro start b (hb | hb)
        · exact ih _ b (.inl (hb.trans (le_max_left _ _)))
        · rcases List.mem_cons.mp hb with rfl | hb
          · exact ih _ b (.inl (le_max_right _ _))
          · exact ih _ b (.inr hb)
  exact hle _ 0 _ (.inr hmem)

end Holds

/-- What stands before the rest of a run: rows of earlier calls, and rows of this one with
lower versions. -/
def Leads (batch calls : Nat) (rest : List Migration) (e : Row × Nat) : Prop :=
  (e.1.batch < batch ∧ e.2 < calls) ∨
    (e.1.batch = batch ∧ e.2 = calls ∧ ∀ m ∈ rest, nameLe e.1.name m.name)

theorem applyAll_holds {rest : List Migration} {db : Database} {entries : List (Row × Nat)}
    (h : Holds db entries) (batch now : Nat) (done : List Text)
    (hsorted : rest.Pairwise fun a b => nameLe a.name b.name)
    (hleads : ∀ e ∈ entries, Leads batch db.calls rest e) :
    (∃ entries', Holds (db.applyAll batch now done rest).2 entries') ∧
      (db.applyAll batch now done rest).2.calls = db.calls ∧
      ∃ rows, (db.applyAll batch now done rest).2.rows = db.rows ++ rows ∧
        ∀ row ∈ rows, row.batch = batch := by
  induction rest generalizing db entries done with
  | nil => exact ⟨⟨entries, h⟩, rfl, [], (List.append_nil _).symm, fun row hrow => nomatch hrow⟩
  | cons m rest ih =>
      obtain ⟨hm, hrest⟩ := List.pairwise_cons.mp hsorted
      have hnext : ∀ e ∈ entries, Leads batch db.calls rest e := fun e he =>
        (hleads e he).imp_right fun h => ⟨h.1, h.2.1, fun m hm => h.2.2 m (List.mem_cons_of_mem _ hm)⟩
      simp only [Database.applyAll, Database.apply]
      split
      case h_1 e db' heq =>
        split at heq
        · cases heq
        split at heq
        · cases heq
          exact ⟨⟨entries, h⟩, rfl, [], (List.append_nil _).symm, fun row hrow => nomatch hrow⟩
        · cases heq
      case h_2 ran db' heq =>
        split at heq
        · cases heq
          exact ih h _ hrest hnext
        split at heq
        · cases heq
        · rename_i hno _
          cases heq
          have hno' : db.recorded m.name = false := Bool.eq_false_iff.mpr hno
          have hheld := @Holds.snoc _ _ h ⟨m.name, batch, m.file.checksum, now⟩ hno' fun e he =>
            (hleads e he).imp_right fun h => ⟨h.1, h.2.1, h.2.2 m List.mem_cons_self⟩
          have hleads' : ∀ e ∈ entries ++ [((⟨m.name, batch, m.file.checksum, now⟩ : Row),
              db.calls)], Leads batch db.calls rest e := by
            intro e he
            rcases List.mem_append.mp he with he | he
            · exact hnext e he
            · rw [List.mem_singleton.mp he]
              exact .inr ⟨rfl, rfl, hm⟩
          obtain ⟨hholds, hcalls, rows, hrows, hbatch⟩ := ih hheld (done ++ [m.name]) hrest hleads'
          refine ⟨hholds, hcalls, ⟨m.name, batch, m.file.checksum, now⟩ :: rows, ?_, ?_⟩
          · rw [← List.append_cons] at hrows
            exact hrows
          · intro row hrow
            rcases List.mem_cons.mp hrow with rfl | hrow
            · rfl
            · exact hbatch row hrow

theorem parsed_version {name version : Text} (h : parsed name = some version) :
    versionOf name = version := by
  unfold parsed at h
  unfold versionOf
  split at h
  case h_1 v rest heq =>
    split at h
    · cases h
      rfl
    · cases h
  case h_2 => cases h

theorem readEntries_versions {files : List File} {versions : List (Text × Text)}
    {found out : List Migration} (h : readEntries versions found files = .ok out)
    (hfound : ∀ m ∈ found, versionOf m.name = m.version) :
    ∀ m ∈ out, versionOf m.name = m.version := by
  induction files generalizing versions found with
  | nil =>
      cases h
      exact hfound
  | cons file files ih =>
      simp only [readEntries] at h
      split at h
      · exact ih h hfound
      split at h
      · exact ih h hfound
      split at h
      · cases h
      case h_2 version hparsed =>
        split at h
        · cases h
        refine ih h fun m hm => ?_
        rcases List.mem_append.mp hm with hm | hm
        · exact hfound m hm
        · rw [List.mem_singleton.mp hm]
          exact parsed_version hparsed

theorem migrations_sorted {at' : Surroundings} {found : List Migration}
    (h : migrations at' = .ok found) : found.Pairwise fun a b => nameLe a.name b.name := by
  simp only [migrations] at h
  split at h
  · cases h
  split at h
  · cases h
  case h_2 read hread =>
    cases h
    have hversions := readEntries_versions hread fun m hm => nomatch hm
    have hsorted := @MergeSort.sort_sorted Migration
      (fun a b => decide (compareVersions a.version a.name b.version b.name ≤ 0))
      (fun a b => by
        rw [decide_eq_true_eq, decide_eq_true_eq]
        exact pairLe_total (a.version, a.name) (b.version, b.name))
      (fun a b c => by
        rw [decide_eq_true_eq, decide_eq_true_eq, decide_eq_true_eq]
        exact fun hab hbc => pairLe_trans (a := (a.version, a.name)) (b := (b.version, b.name))
          (c := (c.version, c.name)) hab hbc) read
    refine hsorted.imp_of_mem fun {a b} ha hb hab => ?_
    rw [nameLe, hversions a ((MergeSort.sort_perm read).mem_iff.mp ha),
      hversions b ((MergeSort.sort_perm read).mem_iff.mp hb)]
    exact (of_decide_eq_true hab : compareVersions _ _ _ _ ≤ 0)

theorem chosenUp_sublist {options : Options} {found chosen : List Migration}
    (h : chosenUp options found = .ok chosen) : chosen.Sublist found := by
  simp only [chosenUp] at h
  split at h
  · split at h
    · cases h
    · cases h
      exact List.take_sublist _ _
  · split at h
    · cases h
    · cases h
      exact List.take_sublist _ _
  · cases h
    exact List.Sublist.refl _

theorem pending_sorted {at' : Surroundings} {db : Database} {found : List Migration}
    (h : pending at' db = .ok found) : found.Pairwise fun a b => nameLe a.name b.name := by
  simp only [pending] at h
  split at h
  · cases h
  case h_2 all hall =>
    cases h
    exact (migrations_sorted hall).filter _

/-- A run's batch is that of no row before it, and the record keeps its shape. -/
theorem up_holds {db : Database} {entries : List (Row × Nat)} (h : Holds db entries)
    (hcalls : ∀ e ∈ entries, e.2 < db.calls) (at' : Surroundings) (options : Options) :
    (∃ entries', Holds (db.up at' options).2 entries') ∧
      (db.up at' options).2.calls = db.calls ∧
      ∃ batch rows, (db.up at' options).2.rows = db.rows ++ rows ∧
        (∀ row ∈ rows, row.batch = batch) ∧ ∀ row ∈ db.rows, row.batch ≠ batch := by
  have hfresh : ∀ row ∈ db.rows, row.batch ≠ db.latestBatch + 1 := by
    intro row hrow
    rw [h.rows] at hrow
    obtain ⟨e, he, rfl⟩ := List.mem_map.mp hrow
    exact (Nat.lt_succ_of_le (h.latestBatch_le he)).ne
  have hsame : (∃ entries', Holds db entries') ∧ db.calls = db.calls ∧
      ∃ batch rows, db.rows = db.rows ++ rows ∧ (∀ row ∈ rows, row.batch = batch) ∧
        ∀ row ∈ db.rows, row.batch ≠ batch :=
    ⟨⟨entries, h⟩, rfl, db.latestBatch + 1, [], (List.append_nil _).symm,
      fun row hrow => (nomatch hrow), hfresh⟩
  simp only [Database.up]
  split
  · exact hsame
  case h_2 found hfound =>
    split
    · exact hsame
    case h_2 chosen hchosen =>
      split
      · exact hsame
      · obtain ⟨hholds, hkept, rows, hrows, hbatch⟩ :=
          applyAll_holds h (db.latestBatch + 1) at'.now []
            ((pending_sorted hfound).sublist (chosenUp_sublist hchosen)) fun e he =>
              .inl ⟨Nat.lt_succ_of_le (h.latestBatch_le he), hcalls e he⟩
        exact ⟨hholds, hkept, db.latestBatch + 1, rows, hrows, hbatch, hfresh⟩

theorem revertAll_holds {rest : List Migration} {db : Database} {entries : List (Row × Nat)}
    (h : Holds db entries) (done : List Text) :
    (∃ entries', Holds (db.revertAll done rest).2 entries') ∧
      (db.revertAll done rest).2.calls = db.calls := by
  induction rest generalizing db entries done with
  | nil => exact ⟨⟨entries, h⟩, rfl⟩
  | cons m rest ih =>
      simp only [Database.revertAll, Database.revert]
      split
      case h_1 e db' heq =>
        split at heq
        · cases heq
        split at heq
        · cases heq
          exact ⟨⟨entries, h⟩, rfl⟩
        · cases heq
      case h_2 ran db' heq =>
        split at heq
        · cases heq
          exact ih h _
        split at heq
        · cases heq
        · cases heq
          exact ih (h.remove m.name) _

/-- Recorded migrations are rolled back one after another, up to one that raises. -/
theorem revertAll_deeds {rest : List Migration} {db : Database} {entries : List (Row × Nat)}
    (h : Holds db entries) (done : List Text) (hnames : (rest.map Migration.name).Nodup)
    (hrecorded : ∀ m ∈ rest, db.recorded m.name = true) :
    ∃ undone, undone <+: rest.map Migration.name ∧
      (db.revertAll done rest).2.deeds = db.deeds ++ undone.map (Deed.down db.calls) ∧
      ∀ out, (db.revertAll done rest).1 = .ok out →
        undone = rest.map Migration.name ∧ out = done ++ undone := by
  induction rest generalizing db entries done with
  | nil =>
      refine ⟨[], List.nil_prefix, (List.append_nil _).symm, fun out hout => ?_⟩
      cases hout
      exact ⟨rfl, (List.append_nil _).symm⟩
  | cons m rest ih =>
      obtain ⟨hm, hrest⟩ := List.nodup_cons.mp hnames
      simp only [Database.revertAll, Database.revert]
      rw [hrecorded m List.mem_cons_self]
      simp only [Bool.not_true, Bool.false_eq_true, if_false]
      by_cases hraises : m.file.raisesDown = true
      · simp only [hraises, if_true]
        exact ⟨[], List.nil_prefix, (List.append_nil _).symm, fun out hout => nomatch hout⟩
      · simp only [hraises, Bool.false_eq_true, if_false, if_true]
        have hheld := h.remove m.name
        have hrecorded' : ∀ m' ∈ rest, Database.recorded
            { db with
              rows := db.rows.filter fun r => !(r.name == m.name)
              deeds := db.deeds ++ [.down db.calls m.name] } m'.name = true := by
          intro m' hm'
          obtain ⟨e, he, hname⟩ :=
            (h.recorded_iff m'.name).mp (hrecorded m' (List.mem_cons_of_mem m hm'))
          refine (hheld.recorded_iff m'.name).mpr ⟨e, List.mem_filter.mpr ⟨he, ?_⟩, hname⟩
          have hne : e.1.name ≠ m.name := by
            rw [hname]
            rintro hsame
            exact hm (hsame ▸ List.mem_map_of_mem hm')
          simpa using hne
        obtain ⟨undone, hprefix, hdeeds, hok⟩ := ih hheld (done ++ [m.name]) hrest hrecorded'
        refine ⟨m.name :: undone, List.cons_prefix_cons.mpr ⟨rfl, hprefix⟩, ?_, fun out hout => ?_⟩
        · rw [hdeeds, List.map_cons, List.append_assoc, List.singleton_append]
        · obtain ⟨hall, hout⟩ := hok out hout
          rw [hout, hall]
          exact ⟨rfl, by simp⟩

theorem checked_names {directory : Text} {found chosen : List Migration} {rows : List Row}
    (h : checked directory found rows = .ok chosen) :
    chosen.map Migration.name = rows.map Row.name := by
  induction rows generalizing chosen with
  | nil =>
      cases h
      rfl
  | cons row rows ih =>
      simp only [checked] at h
      split at h
      · cases h
      case h_2 m hm =>
        split at h
        · cases h
        split at h
        · split at h
          · cases h
          case h_2 rest hrest =>
            cases h
            rw [List.map_cons, List.map_cons, ih hrest]
            have hname := List.find?_some hm
            rw [beq_iff_eq.mp hname]
        · cases h

theorem rollBack_holds {db : Database} {entries : List (Row × Nat)} (h : Holds db entries)
    (at' : Surroundings) (rows : List Row) :
    (∃ entries', Holds (db.rollBack at' rows).2 entries') ∧
      (db.rollBack at' rows).2.calls = db.calls := by
  simp only [Database.rollBack]
  split
  · exact ⟨⟨entries, h⟩, rfl⟩
  split
  · exact ⟨⟨entries, h⟩, rfl⟩
  · exact revertAll_holds h []

theorem down_holds {db : Database} {entries : List (Row × Nat)} (h : Holds db entries)
    (at' : Surroundings) (options : Options) :
    (∃ entries', Holds (db.down at' options).2 entries') ∧
      (db.down at' options).2.calls = db.calls := by
  simp only [Database.down]
  split
  · exact ⟨⟨entries, h⟩, rfl⟩
  · exact rollBack_holds h at' _

/-- What a rollback of recorded rows undoes: all of them, or some of the first. -/
theorem rollBack_deeds {db : Database} {entries : List (Row × Nat)} (h : Holds db entries)
    (at' : Surroundings) {rows : List Row} (hnames : (rows.map Row.name).Nodup)
    (hrows : ∀ row ∈ rows, row ∈ db.rows) :
    ∃ undone, undone <+: rows.map Row.name ∧
      (db.rollBack at' rows).2.deeds = db.deeds ++ undone.map (Deed.down db.calls) ∧
      ∀ out, (db.rollBack at' rows).1 = .ok out → undone = rows.map Row.name ∧ out = undone := by
  have hnothing : ∃ undone, undone <+: rows.map Row.name ∧
      db.deeds = db.deeds ++ undone.map (Deed.down db.calls) ∧ undone = [] :=
    ⟨[], List.nil_prefix, (List.append_nil _).symm, rfl⟩
  obtain ⟨undone, hprefix, hdeeds, -⟩ := hnothing
  simp only [Database.rollBack]
  split
  · exact ⟨undone, hprefix, hdeeds, fun out hout => nomatch hout⟩
  split
  · exact ⟨undone, hprefix, hdeeds, fun out hout => nomatch hout⟩
  case h_2 chosen hchosen =>
    have hsame := checked_names hchosen
    have hrecorded : ∀ m ∈ chosen, db.recorded m.name = true := by
      intro m hm
      have hname : m.name ∈ rows.map Row.name := hsame ▸ List.mem_map_of_mem hm
      obtain ⟨row, hrow, hrowName⟩ := List.mem_map.mp hname
      rw [Database.recorded, List.any_eq_true]
      exact ⟨row, hrows row hrow, beq_iff_eq.mpr hrowName⟩
    have hdone := revertAll_deeds h [] (hsame ▸ hnames) hrecorded
    rw [hsame] at hdone
    simpa only [List.nil_append, and_congr_right_iff] using hdone

theorem new_holds : Holds .new [] :=
  ⟨rfl, rfl, .nil, .nil, fun _ he => nomatch he⟩

/-- The record after a call that is about to begin. -/
def Database.begun (db : Database) : Database := { db with calls := db.calls + 1 }

theorem Holds.begun {db : Database} {entries : List (Row × Nat)} (h : Holds db entries) :
    Holds db.begun entries :=
  ⟨h.rows, h.standing, h.before, h.names, fun e he => (h.calls e he).trans (Nat.le_succ _)⟩

theorem Holds.begun_calls {db : Database} {entries : List (Row × Nat)} (h : Holds db entries)
    {e : Row × Nat} (he : e ∈ entries) : e.2 < db.begun.calls := Nat.lt_succ_of_le (h.calls e he)

theorem call_holds {db : Database} {entries : List (Row × Nat)} (h : Holds db entries)
    (c : Call) : ∃ entries', Holds (db.call c).2 entries' := by
  cases c with
  | up at' options => exact (up_holds h.begun (fun e he => h.begun_calls he) at' options).1
  | down at' options => exact (down_holds h.begun at' options).1
  | reset at' => exact (rollBack_holds h.begun at' _).1

theorem after_holds (history : List Call) : ∃ entries, Holds (after history) entries := by
  induction history using List.reverseRecOn with
  | nil => exact ⟨[], new_holds⟩
  | append_singleton history c ih =>
      obtain ⟨entries, h⟩ := ih
      rw [after, List.foldl_append]
      exact call_holds h c

namespace Holds

variable {db : Database} {entries : List (Row × Nat)}

theorem row_names (h : Holds db entries) : (db.rows.map Row.name).Nodup := by
  rw [h.rows, List.map_map]
  exact h.names

theorem row_eq (h : Holds db entries) {a b : Row} (ha : a ∈ db.rows) (hb : b ∈ db.rows)
    (hname : a.name = b.name) : a = b :=
  List.inj_on_of_nodup_map h.row_names ha hb hname

/-- Among the rows, being of one batch and of one call are the same. -/
theorem batch_iff_call (h : Holds db entries) {a b : Row × Nat} (ha : a ∈ entries)
    (hb : b ∈ entries) : a.1.batch = b.1.batch ↔ a.2 = b.2 := by
  have hpair : entries.Pairwise fun x y => x.1.batch = y.1.batch ↔ x.2 = y.2 := by
    refine h.before.imp fun {x y} hxy => ?_
    rcases hxy with ⟨hbatch, hcall⟩ | ⟨hbatch, hcall, -⟩
    · exact iff_of_false hbatch.ne hcall.ne
    · exact iff_of_true hbatch hcall
  have hflip : entries.Pairwise (flip fun x y => x.1.batch = y.1.batch ↔ x.2 = y.2) :=
    hpair.imp fun {x y} hxy => by rw [flip, eq_comm, hxy, eq_comm]
  exact List.Pairwise.forall_of_forall_of_flip
    (R := fun x y : Row × Nat => x.1.batch = y.1.batch ↔ x.2 = y.2)
    (fun _ _ => iff_of_true rfl rfl) hpair hflip ha hb

/-- The rows of one batch are applied in the order of their versions. -/
theorem batch_sorted (h : Holds db entries) (batch : Nat) :
    (db.rows.filter fun r => r.batch == batch).Pairwise fun a b => nameLe a.name b.name := by
  rw [h.rows, List.filter_map, List.pairwise_map]
  refine (h.before.filter _).imp_of_mem fun {x y} hx hy hxy => ?_
  have hx' : x.1.batch = batch := beq_iff_eq.mp (List.mem_filter.mp hx).2
  have hy' : y.1.batch = batch := beq_iff_eq.mp (List.mem_filter.mp hy).2
  rcases hxy with ⟨hbatch, -⟩ | ⟨-, -, hle⟩
  · exact absurd (hx'.trans hy'.symm) hbatch.ne
  · exact hle

theorem applied_batch (h : Holds db entries) (batch : Nat) :
    (db.applied.filter fun r => r.batch == batch) = db.rows.filter fun r => r.batch == batch := by
  have hperm := (applied_perm db).filter fun r => r.batch == batch
  refine hperm.eq_of_pairwise (fun a b ha hb hab hba => ?_)
    ((applied_sorted db).filter _) (h.batch_sorted batch)
  have ha' : a ∈ db.rows := (List.mem_filter.mp (hperm.mem_iff.mp ha)).1
  exact h.row_eq ha' (List.mem_filter.mp hb).1 (nameLe_antisymm hab hba)

theorem lastRun_eq (h : Holds db entries) {last : Row × Nat}
    (hlast : entries.getLast? = some last) :
    lastRun db.deeds =
      ((db.rows.filter fun r => r.batch == last.1.batch).map Row.name).reverse := by
  have hmem : last ∈ entries := List.mem_of_getLast? hlast
  have hcall : entries.filter (fun e => e.2 == last.2) =
      entries.filter fun e => e.1.batch == last.1.batch := by
    refine List.filter_congr fun e he => ?_
    rw [Bool.eq_iff_iff, beq_iff_eq, beq_iff_eq]
    exact (h.batch_iff_call he hmem).symm
  rw [lastRun, h.standing, List.getLast?_map, hlast]
  simp only [Option.map_some, List.filter_map, List.map_map]
  rw [h.rows, List.filter_map, List.map_map]
  congr 1
  exact congrArg (List.map fun e : Row × Nat => e.1.name) hcall

theorem lastRun_nil (h : Holds db []) : lastRun db.deeds = [] := by
  rw [lastRun, h.standing]
  rfl

end Holds

/-- The applied migration with the highest version was applied by the most recent `up` that
still has any applied. -/
def HighestIsLast (db : Database) : Prop :=
  ∀ row, db.applied.getLast? = some row → row.name ∈ lastRun db.deeds

theorem chosenDown_none (applied : List Row) :
    chosenDown .none applied =
      match applied with
      | [] => .ok []
      | latest :: rest => .ok ((latest :: rest).filter fun r => r.batch == latest.batch) := rfl

/-- Without options the rows chosen are those of the highest version's batch, newest first;
they are the last run's exactly where the highest version is among them. -/
theorem chosenDown_iff {db : Database} {entries : List (Row × Nat)} (h : Holds db entries) :
    ∃ rows, chosenDown .none db.applied.reverse = .ok rows ∧ (rows.map Row.name).Nodup ∧
      (∀ row ∈ rows, row ∈ db.rows) ∧
      (rows.map Row.name = lastRun db.deeds ↔ HighestIsLast db) := by
  cases hrows : db.applied.reverse with
  | nil =>
      have happlied : db.applied = [] := List.reverse_eq_nil_iff.mp hrows
      have hnone : db.rows = [] := (happlied ▸ applied_perm db).nil_eq.symm
      have hentries : entries = [] := List.map_eq_nil_iff.mp (h.rows.symm.trans hnone)
      subst hentries
      refine ⟨[], rfl, .nil, fun row hrow => (nomatch hrow), ?_⟩
      rw [h.lastRun_nil]
      refine iff_of_true rfl fun row hrow => ?_
      rw [happlied] at hrow
      cases hrow
  | cons latest rest =>
      have happlied : db.applied.getLast? = some latest := by
        rw [List.getLast?_eq_head?_reverse, hrows]
        rfl
      have hchosen : (latest :: rest).filter (fun r => r.batch == latest.batch) =
          (db.rows.filter fun r => r.batch == latest.batch).reverse := by
        rw [← hrows, List.filter_reverse, h.applied_batch]
      have hlatest : latest ∈ db.rows :=
        (applied_perm db).mem_iff.mp (List.mem_of_getLast? happlied)
      refine ⟨_, rfl, ?_, fun row hrow => ?_, ?_⟩
      · rw [hchosen, List.map_reverse, List.nodup_reverse]
        exact h.row_names.sublist (List.filter_sublist.map _)
      · rw [hchosen, List.mem_reverse] at hrow
        exact (List.mem_filter.mp hrow).1
      · rw [hchosen, List.map_reverse]
        cases hlast : entries.getLast? with
        | none =>
            rw [List.getLast?_eq_none_iff] at hlast
            rw [h.rows, hlast] at hlatest
            cases hlatest
        | some last =>
            rw [HighestIsLast, happlied, h.lastRun_eq hlast]
            constructor
            · intro heq row hrow
              cases hrow
              rw [← heq, List.mem_reverse]
              exact List.mem_map_of_mem (List.mem_filter.mpr ⟨hlatest, beq_self_eq_true _⟩)
            · intro hhigh
              have hmem := hhigh latest rfl
              rw [List.mem_reverse] at hmem
              obtain ⟨row, hrow, hname⟩ := List.mem_map.mp hmem
              obtain ⟨hrow, hbatch⟩ := List.mem_filter.mp hrow
              rw [h.row_eq hrow hlatest hname] at hbatch
              rw [beq_iff_eq.mp hbatch]

/-- A rollback without options that returns undoes the last run exactly where the highest
version applied is the last run's; one that raises there has undone the newest of it. Every
`up` has a batch of its own, and the record names what ran up more recently than down. -/
theorem rollback_undoes_last_run_iff (history : List Call) (at' : Surroundings) :
    (∀ done, ((after history).call (.down at' .none)).1 = .ok done →
      ((done = lastRun (after history).deeds ∧
        ((after history).call (.down at' .none)).2.deeds = (after history).deeds ++
          (lastRun (after history).deeds).map (Deed.down ((after history).calls + 1))) ↔
        HighestIsLast (after history))) ∧
    (HighestIsLast (after history) → ∃ undone, undone <+: lastRun (after history).deeds ∧
      ((after history).call (.down at' .none)).2.deeds = (after history).deeds ++
        undone.map (Deed.down ((after history).calls + 1))) ∧
    (∀ options, ∃ batch rows,
      ((after history).call (.up at' options)).2.rows = (after history).rows ++ rows ∧
        (∀ row ∈ rows, row.batch = batch) ∧
        ∀ row ∈ (after history).rows, row.batch ≠ batch) ∧
    (∀ name, name ∈ (after history).rows.map Row.name ↔
      ∃ call, lastDeed (after history).deeds name = some (.up call name)) := by
  obtain ⟨entries, h⟩ := after_holds history
  generalize after history = db at h
  obtain ⟨rows, hchosen, hnames, hrows, hiff⟩ := chosenDown_iff h
  obtain ⟨undone, hprefix, hdeeds, hok⟩ := rollBack_deeds h.begun at' hnames hrows
  have hcall : db.call (.down at' .none) = db.begun.rollBack at' rows := by
    change Database.down db.begun at' .none = _
    have hbegun : chosenDown .none db.begun.applied.reverse = .ok rows := hchosen
    rw [Database.down, hbegun]
  refine ⟨fun done hdone => ?_, fun hhigh => ?_, fun options => ?_, fun name => ?_⟩
  · rw [hcall] at hdone ⊢
    obtain ⟨hall, hsame⟩ := hok done hdone
    rw [hsame, hall, ← hiff, hdeeds, hall]
    constructor
    · exact fun hboth => hboth.1
    · exact fun heq => ⟨heq, by rw [heq]; rfl⟩
  · rw [hcall]
    exact ⟨undone, hiff.mpr hhigh ▸ hprefix, hdeeds⟩
  · obtain ⟨-, -, hbatch⟩ := up_holds h.begun (fun e he => h.begun_calls he) at' options
    exact hbatch
  · have hmem : name ∈ db.rows.map Row.name ↔ ∃ call, (call, name) ∈ standing db.deeds := by
      rw [h.rows, h.standing]
      simp only [List.mem_map, List.map_map, Function.comp_apply, Prod.mk.injEq]
      constructor
      · rintro ⟨e, he, rfl⟩
        exact ⟨e.2, e, he, rfl, rfl⟩
      · rintro ⟨call, e, he, -, rfl⟩
        exact ⟨e, he, rfl⟩
    rw [hmem]
    exact exists_congr fun call => mem_standing db.deeds call name

def bFile : File := ⟨"2_b.zu".toList, false, [], true, true, false, false⟩

def aFile : File := ⟨"1_a.zu".toList, false, [], true, true, false, false⟩

/-- `2_b` is applied, then `1_a` is added and applied. -/
def addedBelow : List Call :=
  [.up ⟨[], some [bFile], 0⟩ .none, .up ⟨[], some [aFile, bFile], 1⟩ .none]

def bRow : Row := ⟨"2_b".toList, 1, [], 0⟩

def aRow : Row := ⟨"1_a".toList, 2, [], 1⟩

theorem migrations_both (now : Nat) :
    migrations ⟨[], some [aFile, bFile], now⟩ =
      .ok [⟨aRow.name, ['1'], aFile⟩, ⟨bRow.name, ['2'], bFile⟩] := by
  have hread : readEntries [] [] [aFile, bFile] =
      .ok [⟨aRow.name, ['1'], aFile⟩, ⟨bRow.name, ['2'], bFile⟩] := rfl
  simp only [migrations, hread]
  rw [MergeSort.sort_pair, if_pos (by decide +kernel)]

theorem after_addedBelow :
    after addedBelow = ⟨[bRow, aRow], 2, [.up 1 bRow.name, .up 2 aRow.name]⟩ := by
  have hfirst : (Database.new.call (.up ⟨[], some [bFile], 0⟩ .none)).2 =
      ⟨[bRow], 1, [.up 1 bRow.name]⟩ := by decide +kernel
  have hsecond : (Database.call ⟨[bRow], 1, [.up 1 bRow.name]⟩
      (.up ⟨[], some [aFile, bFile], 1⟩ .none)).2 =
      ⟨[bRow, aRow], 2, [.up 1 bRow.name, .up 2 aRow.name]⟩ := by
    simp only [Database.call, Database.up, pending, migrations_both]
    decide +kernel
  rw [after, addedBelow, List.foldl_cons, hfirst, List.foldl_cons, hsecond, List.foldl_nil]

theorem down_addedBelow :
    ((after addedBelow).call (.down ⟨[], some [aFile, bFile], 2⟩ .none)).1.toOption =
      some [bRow.name] := by
  have happlied : Database.applied ⟨[bRow, aRow], 3, [.up 1 bRow.name, .up 2 aRow.name]⟩ =
      [aRow, bRow] := by
    rw [Database.applied, MergeSort.sort_pair, if_neg (by decide +kernel)]
  rw [after_addedBelow]
  simp only [Database.call, Database.down, happlied]
  simp only [Database.rollBack, chosenDown_none, migrations_both]
  rfl

/-- The rollback takes the first run's migration back and leaves the last run's. -/
theorem rollback_undoes_first_run :
    ¬ ∀ (history : List Call) (at' : Surroundings) (done : List Text),
      ((after history).call (.down at' .none)).1.toOption = some done →
        done = lastRun (after history).deeds := by
  intro h
  have hlast := h addedBelow ⟨[], some [aFile, bFile], 2⟩ _ down_addedBelow
  rw [after_addedBelow] at hlast
  exact absurd hlast (by decide)

end Zuri.Migrate
