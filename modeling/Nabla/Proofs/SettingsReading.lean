import Nabla.Proofs.Sequence
import Nabla.Session.Basic

/-!
# Reading settings from a record

The fields of a record are read one after the other, and each is in force at once. So a value that
cannot be converted leaves the fields before it read: reading is not atomic. What has been read is
described by `ReadAs`, and the state after a failure is the state after the fields before it.
-/

namespace Nabla

namespace Settings

variable {s s' : Settings}

/-! ## One option -/

theorem text_of_property? {key : String} {p : Property} (h : s.property? key = some p) :
    p.key.text = key := by
  unfold property? at h
  simpa using List.find?_some h

theorem property?_congr (h : s'.registered = s.registered) (key : String) :
    s'.property? key = s.property? key := by
  unfold property?
  rw [h]

theorem Key.text_of_ofText? {name : String} {k : Key} (h : Key.ofText? name = some k) :
    k.text = name := by
  unfold Key.ofText? at h
  have hname : name = k.text := by simpa using List.find?_some h
  exact hname.symm

theorem replaced?_set_of_ne {k : Key} {name : String} (j : Json) (h : name ≠ k.text) :
    (s.set k j).replaced? name = s.replaced? name := by
  unfold replaced?
  split
  · rename_i i hi
    have hk : k ≠ .member i := by
      rintro rfl
      exact h (Key.text_of_ofText? hi).symm
    cases k with
    | member l =>
      have hil : i ≠ l := fun hil => hk (by rw [hil])
      simp [set, hil]
    | _ => rfl
  · rfl

/-! ## What has been read -/

/-- A registered option of this name is among the fields. -/
def Given (s : Settings) (fields : List (String × Json)) (name : String) : Prop :=
  name ∈ fields.map Prod.fst ∧ s.property? name ≠ none

/-- The settings `s'` are `s` after the fields have been read. -/
structure ReadAs (s : Settings) (fields : List (String × Json)) (s' : Settings) : Prop where
  registered : s'.registered = s.registered
  /-- A registered option holds the value of its field as a value of its type. -/
  given : ∀ key j p, (key, j) ∈ fields → s.property? key = some p →
    p.type.convert j = .ok (s'.get p.key)
  others : ∀ k : Key, ¬ s.Given fields k.text → s'.get k = s.get k
  members : ∀ name, ¬ s.Given fields name → s'.replaced? name = s.replaced? name

/-- A field that reading cannot go past: the registry is gone, or the value does not fit. -/
def Refuses (s : Settings) (key : String) (j : Json) (err : Error) : Prop :=
  s.checkRegistry "get" = .error err ∨
    ∃ p, s.property? key = some p ∧ readValue p j = .error err

theorem convert_of_readValue {p : Property} {j v : Json} (h : readValue p j = .ok v) :
    p.type.convert j = .ok v := by
  unfold readValue at h
  obtain ⟨w, hw, h⟩ := bind_eq_ok_iff.mp h
  obtain ⟨_, -, h⟩ := bind_eq_ok_iff.mp h
  cases h
  exact hw

namespace ReadAs

variable {key : String} {j : Json} {rest : List (String × Json)}

theorem nil (s : Settings) : s.ReadAs [] s :=
  ⟨rfl, fun _ _ _ h => (nomatch h), fun _ _ => rfl, fun _ _ => rfl⟩

theorem skip (h : s.ReadAs rest s') (hkey : s.property? key = none) :
    s.ReadAs ((key, j) :: rest) s' := by
  have hgiven : ∀ name, ¬ s.Given ((key, j) :: rest) name → ¬ s.Given rest name :=
    fun name hn hg => hn ⟨List.mem_cons_of_mem _ hg.1, hg.2⟩
  refine ⟨h.registered, ?_, fun k hk => h.others k (hgiven _ hk),
    fun name hn => h.members name (hgiven _ hn)⟩
  intro key' j' p hmem hp
  rcases List.mem_cons.mp hmem with heq | hmem
  · cases heq
    rw [hkey] at hp
    cases hp
  · exact h.given key' j' p hmem hp

theorem cons {p : Property} {v : Json} (h : (s.set p.key v).ReadAs rest s')
    (hkey : s.property? key = some p) (hv : readValue p j = .ok v)
    (hnew : key ∉ rest.map Prod.fst) : s.ReadAs ((key, j) :: rest) s' := by
  have htext := text_of_property? hkey
  have hproperty : ∀ name, (s.set p.key v).property? name = s.property? name :=
    property?_congr (registered_set s p.key v)
  -- An option that is not among all of the fields is another one, and it is not among the rest.
  have hgiven : ∀ name, ¬ s.Given ((key, j) :: rest) name →
      name ≠ p.key.text ∧ ¬ (s.set p.key v).Given rest name := by
    intro name hn
    constructor
    · rintro rfl
      exact hn ⟨by simp [htext], by rw [htext, hkey]; simp⟩
    · rintro ⟨hmem, hreg⟩
      rw [hproperty] at hreg
      exact hn ⟨List.mem_cons_of_mem _ hmem, hreg⟩
  refine ⟨?_, ?_, ?_, ?_⟩
  · rw [h.registered, registered_set]
  · intro key' j' q hmem hq
    rcases List.mem_cons.mp hmem with heq | hmem
    · cases heq
      obtain rfl : p = q := Option.some.inj (hkey.symm.trans hq)
      rw [h.others p.key (by rw [htext]; exact fun hg => hnew hg.1), get_set_self]
      exact convert_of_readValue hv
    · exact h.given key' j' q hmem (by rw [hproperty]; exact hq)
  · intro k hk
    obtain ⟨hne, hrest⟩ := hgiven _ hk
    rw [h.others k hrest, get_set_of_ne]
    exact fun heq => hne (by rw [heq])
  · intro name hn
    obtain ⟨hne, hrest⟩ := hgiven _ hn
    rw [h.members name hrest, replaced?_set_of_ne v hne]

end ReadAs

/-! ## Field by field -/

theorem readFields_cases (s : Settings) (key : String) (j : Json) :
    (s.property? key = none ∧ ∀ rest, readFields ((key, j) :: rest) s = readFields rest s) ∨
    (∃ p v, s.property? key = some p ∧ readValue p j = .ok v ∧
      ∀ rest, readFields ((key, j) :: rest) s = readFields rest (s.set p.key v)) ∨
    ∃ err, s.Refuses key j err ∧ ∀ rest, readFields ((key, j) :: rest) s = (s, .error err) := by
  cases hr : s.checkRegistry "get" with
  | error err => exact .inr (.inr ⟨err, .inl hr, fun rest => by simp [readFields, hr]⟩)
  | ok _ =>
    cases hp : s.property? key with
    | none => exact .inl ⟨rfl, fun rest => by simp [readFields, hr, hp]⟩
    | some p =>
      cases hv : readValue p j with
      | ok v => exact .inr (.inl ⟨p, v, rfl, hv, fun rest => by simp [readFields, hr, hp, hv]⟩)
      | error err =>
        exact .inr (.inr ⟨err, .inr ⟨p, hp, hv⟩, fun rest => by simp [readFields, hr, hp, hv]⟩)

theorem stops_of_readFields {fields : List (String × Json)} {err : Error}
    (h : readFields fields s = (s', .error err)) :
    ∃ before key j after, fields = before ++ (key, j) :: after ∧
      readFields before s = (s', .ok ()) ∧ s'.Refuses key j err := by
  induction fields generalizing s with
  | nil => cases h
  | cons field rest ih =>
    obtain ⟨key, j⟩ := field
    rcases readFields_cases s key j with ⟨-, hstep⟩ | ⟨p, v, -, -, hstep⟩ | ⟨err', href, hstep⟩
    · rw [hstep] at h
      obtain ⟨before, key', j', after, rfl, hs', href⟩ := ih h
      exact ⟨(key, j) :: before, key', j', after, rfl, (hstep before).trans hs', href⟩
    · rw [hstep] at h
      obtain ⟨before, key', j', after, rfl, hs', href⟩ := ih h
      exact ⟨(key, j) :: before, key', j', after, rfl, (hstep before).trans hs', href⟩
    · rw [hstep] at h
      cases h
      exact ⟨[], key, j, rest, rfl, rfl, href⟩

theorem readAs_of_readFields {fields : List (String × Json)} (hdict : (fields.map Prod.fst).Nodup)
    (h : readFields fields s = (s', .ok ())) : s.ReadAs fields s' := by
  induction fields generalizing s with
  | nil =>
    cases h
    exact .nil _
  | cons field rest ih =>
    obtain ⟨key, j⟩ := field
    obtain ⟨hnew, hdict⟩ := List.nodup_cons.mp hdict
    rcases readFields_cases s key j with ⟨hp, hstep⟩ | ⟨p, v, hp, hv, hstep⟩ | ⟨err, -, hstep⟩
    · rw [hstep] at h
      exact (ih hdict h).skip hp
    · rw [hstep] at h
      exact (ih hdict h).cons hp hv hnew
    · rw [hstep] at h
      cases h

end Settings

/-! ## In a session -/

namespace Session

variable {t : Session} {id : SettingsId} {s : Settings}

/-- The session with other settings at a place. -/
def withSettings (t : Session) (id : SettingsId) (s : Settings) : Session :=
  { t with settings := t.settings.set id s }

theorem settings_withSettings (hs : t.settings[id]? = some s) (s' : Settings) :
    (t.withSettings id s').settings[id]? = some s' := by
  obtain ⟨hid, -⟩ := List.getElem?_eq_some_iff.mp hs
  simp [withSettings, hid]

theorem run_getSettings (hs : t.settings[id]? = some s) : (getSettings id).run.run t = (.ok s, t) := by
  have hget : t.settings.getD id {} = s := by simp [List.getD, hs]
  show (Except.ok (t.settings.getD id {}), t) = _
  rw [hget]

theorem run_readSettings_of_closed (hs : t.settings[id]? = some s) {err : Error}
    (hclosed : s.checkMember "parse" = .error err) (data : Json) :
    (readSettings id data).run.run t = (.error err, t) := by
  unfold readSettings
  rw [run_bind_of_ok (run_getSettings hs), hclosed]
  rfl

theorem run_readSettings (hs : t.settings[id]? = some s) (hopen : s.checkMember "parse" = .ok ())
    (data : Json) :
    (readSettings id data).run.run t = ((s.read data).2, t.withSettings id (s.read data).1) := by
  unfold readSettings
  rw [run_bind_of_ok (run_getSettings hs), hopen, run_bind_of_ok (run_liftM (.ok ()) t),
    run_bind_of_ok (run_getSettings hs)]
  exact run_liftM (s.read data).2 (t.withSettings id (s.read data).1)

theorem run_optionNames (hs : t.settings[id]? = some s) :
    (optionNames id).run.run t = (do s.checkMember "get_keys"; s.keys, t) := by
  unfold optionNames
  rw [run_bind_of_ok (run_getSettings hs)]
  cases hopen : s.checkMember "get_keys" with
  | error err => rfl
  | ok _ =>
    rw [run_bind_of_ok (run_liftM (.ok ()) t), run_bind_of_ok (run_getSettings hs)]
    exact run_liftM s.keys t

theorem optionNames_congr {s' : Settings} (hs : t.settings[id]? = some s)
    (hregistered : s'.registered = s.registered)
    (hasked : s'.replaced? "get_keys" = s.replaced? "get_keys")
    (hregistry : s'.replaced? "registered_properties" = s.replaced? "registered_properties") :
    ((optionNames id).run.run (t.withSettings id s')).1 = ((optionNames id).run.run t).1 := by
  -- The names are asked for through two members that a value may have replaced.
  rw [run_optionNames (settings_withSettings hs s'), run_optionNames hs]
  simp only [Settings.checkMember, Settings.keys, Settings.checkRegistry, hasked, hregistry,
    hregistered]

end Session

/-- Reading a record either reads all of its fields or stops at the first one that is refused, and
then it leaves the settings as the fields before it have made them. The names of the options stay the
same, unless a field takes the place of one of the members that are asked for them. -/
theorem settings_read_up_to_first_refusal {t : Session} {id : SettingsId} {s : Settings}
    (hs : t.settings[id]? = some s) {fields : List (String × Json)}
    (hdict : (fields.map Prod.fst).Nodup) :
    (∀ err, s.checkMember "parse" = .error err →
      (Session.readSettings id (.obj fields)).run.run t = (.error err, t)) ∧
    (s.checkMember "parse" = .ok () → ∃ outcome s',
      (Session.readSettings id (.obj fields)).run.run t = (outcome, t.withSettings id s') ∧
      (outcome = .ok () → s.ReadAs fields s' ∧
        (¬ s.Given fields "get_keys" → ¬ s.Given fields "registered_properties" →
          ((Session.optionNames id).run.run (t.withSettings id s')).1 =
            ((Session.optionNames id).run.run t).1)) ∧
      ∀ err, outcome = .error err → ∃ before key j after, fields = before ++ (key, j) :: after ∧
        (Session.readSettings id (.obj before)).run.run t = (.ok (), t.withSettings id s') ∧
        s.ReadAs before s' ∧ s'.Refuses key j err) := by
  refine ⟨fun err hclosed => Session.run_readSettings_of_closed hs hclosed _, fun hopen => ?_⟩
  rcases hread : s.read (.obj fields) with ⟨s', outcome⟩
  refine ⟨outcome, s', by rw [Session.run_readSettings hs hopen, hread], ?_, ?_⟩
  · rintro rfl
    have has := Settings.readAs_of_readFields hdict hread
    refine ⟨has, fun hasked hregistry => ?_⟩
    exact Session.optionNames_congr hs has.registered (has.members _ hasked) (has.members _ hregistry)
  · rintro err rfl
    obtain ⟨before, key, j, after, rfl, hbefore, href⟩ := Settings.stops_of_readFields hread
    have hdict' : (before.map Prod.fst).Nodup := by
      rw [List.map_append] at hdict
      exact (List.nodup_append.mp hdict).1
    refine ⟨before, key, j, after, rfl, ?_, Settings.readAs_of_readFields hdict' hbefore, href⟩
    have hread' : s.read (.obj before) = (s', .ok ()) := hbefore
    rw [Session.run_readSettings hs hopen, hread']

/-- A field that is not registered and a number for a text, before a text that is no number. -/
theorem settings_read_up_to_first_refusal_number :
    let s : Settings := {}
    let t : Session := { settings := [s] }
    let fields : List (String × Json) :=
      [("color", .null), ("error_model", .int 3), ("simplify_max_iter", .str "abc")]
    t.settings[0]? = some s ∧ (fields.map Prod.fst).Nodup ∧ s.checkMember "parse" = .ok () ∧
      ∃ s' err, (Session.readSettings 0 (.obj fields)).run.run t = (.error err, t.withSettings 0 s') ∧
        ∃ before key j after, fields = before ++ (key, j) :: after ∧ s.ReadAs before s' ∧
          s'.Refuses key j err := by
  intro s t fields
  have hs : t.settings[0]? = some s := rfl
  have hdict : (fields.map Prod.fst).Nodup := by decide
  have hopen : s.checkMember "parse" = .ok () := rfl
  obtain ⟨outcome, s', hrun, -, hstops⟩ := (settings_read_up_to_first_refusal hs hdict).2 hopen
  obtain rfl : .error (.unreadableInt "abc") = outcome := congrArg Prod.fst hrun
  obtain ⟨before, key, j, after, hsplit, -, has, href⟩ := hstops _ rfl
  exact ⟨hs, hdict, hopen, s', _, hrun, before, key, j, after, hsplit, has, href⟩

/-- A failure leaves an option changed, and a success can put the names of the options out of reach. -/
theorem reading_settings_is_not_atomic :
    let s : Settings := {}
    let t : Session := { settings := [s] }
    let fields : List (String × Json) :=
      [("add_doc_string", .bool false), ("simplify_max_iter", .str "abc")]
    (∃ s' err, (Session.readSettings 0 (.obj fields)).run.run t = (.error err, t.withSettings 0 s') ∧
      s'.pairs ≠ s.pairs) ∧
    ∃ odd u, s.register "get_keys" .int (.str "") = .ok odd ∧
      (Session.readSettings 0 (.obj [("get_keys", .int 5)])).run.run (t.withSettings 0 odd) =
        (.ok (), u) ∧
      ((Session.optionNames 0).run.run u).1 ≠
        ((Session.optionNames 0).run.run (t.withSettings 0 odd)).1 := by
  intro s t fields
  constructor
  · refine ⟨{ document := .bool false }, .unreadableInt "abc", rfl, fun h => ?_⟩
    cases h
  · exact ⟨_, _, rfl, rfl, fun h => by cases h⟩

end Nabla
