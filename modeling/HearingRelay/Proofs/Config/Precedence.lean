import HearingRelay.Config.Load
import HearingRelay.Proofs.Config.Layout
import HearingRelay.Proofs.Except

/-!
Where every setting has its value from. A setting has the value of its own
variable, when that is set and suits the type of the setting, else the value in
the first file that is there, else its default. No variable touches a setting
that is not its own. A first file that cannot be read or understood ends the
load, and so does a rule that the result breaks.
-/

namespace HearingRelay.Config

def Kind.ofVariable : (t : Kind) → String → Option t.Value
  | text => textOf
  | count high => countOf high
  | flag => boolOf

inductive Key where
  | deploymentId
  | database (f : Database.Field)
  | queue (f : Queue.Field)
  | downstream (f : Downstream.Field)
  | pending (f : Pending.Field)
  | scheduler (f : Scheduling.Field)
deriving DecidableEq

namespace Key

def kind : Key → Kind
  | deploymentId => .text
  | database f => f.kind
  | queue f => f.type
  | downstream f => f.kind
  | pending f => f.kind
  | scheduler f => f.kind

def get : (k : Key) → Config → k.kind.Value
  | deploymentId, c => c.deploymentId
  | database f, c => Database.layout.get f c.database
  | queue f, c => Queue.layout.get f c.queue
  | downstream f, c => Downstream.layout.get f c.downstream
  | pending f, c => Pending.layout.get f c.pending
  | scheduler f, c => Scheduling.layout.get f c.scheduler

def set : (k : Key) → Config → k.kind.Value → Config
  | deploymentId, c, v => { c with deploymentId := v }
  | database f, c, v => { c with database := Database.layout.set f c.database v }
  | queue f, c, v => { c with queue := Queue.layout.set f c.queue v }
  | downstream f, c, v => { c with downstream := Downstream.layout.set f c.downstream v }
  | pending f, c, v => { c with pending := Pending.layout.set f c.pending v }
  | scheduler f, c, v => { c with scheduler := Scheduling.layout.set f c.scheduler v }

def variableName? : Key → Option String
  | deploymentId => some "HS_DEPLOYMENT_ID"
  | database .url => some "HS_DATABASE_URL"
  | database .maxConnections => some "HS_DATABASE_MAX_CONNECTIONS"
  | queue .kind => some "HS_QUEUE_TYPE"
  | queue .inbound => some "HS_QUEUE_INBOUND"
  | queue .outbound => some "HS_QUEUE_OUTBOUND"
  | queue .deadLetter => some "HS_QUEUE_DEAD_LETTER"
  | queue .visibilityTimeoutSecs => none
  | queue .pollBatchSize => none
  | queue .pollIntervalMs => none
  | queue .workers => some "HS_QUEUE_WORKERS"
  | queue .maxDeliveryCount => some "HS_MAX_DELIVERY_COUNT"
  | queue .region => some "HS_QUEUE_REGION"
  | downstream .baseUrl => some "HS_DOWNSTREAM_BASE_URL"
  | downstream .tokenUrl => some "HS_DOWNSTREAM_TOKEN_URL"
  | downstream .clientId => some "HS_DOWNSTREAM_CLIENT_ID"
  | downstream .clientSecret => some "HS_DOWNSTREAM_CLIENT_SECRET"
  | downstream .scope => some "HS_DOWNSTREAM_SCOPE"
  | downstream .timeoutSecs => some "HS_DOWNSTREAM_TIMEOUT_SECS"
  | downstream .connectTimeoutSecs => none
  | pending .pendingWaitIntervalMinutes => some "HS_PENDING_WAIT_INTERVAL_MINUTES"
  | pending .escalationWaitIntervalDays => some "HS_ESCALATION_WAIT_INTERVAL_DAYS"
  | pending .deletionWaitIntervalDays => some "HS_DELETION_WAIT_INTERVAL_DAYS"
  | pending .exceptionLimitInHours => some "HS_EXCEPTION_LIMIT_IN_HOURS"
  | pending .processingReclaimMinutes => some "HS_PROCESSING_RECLAIM_MINUTES"
  | scheduler .enabled => some "HS_SCHEDULER_ENABLED"
  | scheduler .runIntervalSecs => some "HS_SCHEDULER_RUN_INTERVAL_SECS"

/-- The value that an environment gives a setting, if its variable is set and suits it. -/
def fromVariable? (k : Key) (env : Environment) : Option k.kind.Value :=
  (k.variableName?.bind env).bind k.kind.ofVariable

def inTable? (doc : List (String × Toml.Value)) : Key → Option Toml.Value
  | deploymentId => valueOf? doc "deployment_id"
  | database f => (valueOf? doc "database").bind (Database.layout.said? f)
  | queue f => (valueOf? doc "queue").bind (Queue.layout.said? f)
  | downstream f => (valueOf? doc "downstream").bind (Downstream.layout.said? f)
  | pending f => (valueOf? doc "pending").bind (Pending.layout.said? f)
  | scheduler f => (valueOf? doc "scheduler").bind (Scheduling.layout.said? f)

def fromFile? (k : Key) (doc : List (String × Toml.Value)) : Option k.kind.Value :=
  (k.inTable? doc).bind k.kind.ofFile

section Settings

theorem get_set (k : Key) (c : Config) (v : k.kind.Value) : k.get (k.set c v) = v := by
  cases k with
  | deploymentId => rfl
  | database f => exact Database.layout.get_set f c.database v
  | queue f => exact Queue.layout.get_set f c.queue v
  | downstream f => exact Downstream.layout.get_set f c.downstream v
  | pending f => exact Pending.layout.get_set f c.pending v
  | scheduler f => exact Scheduling.layout.get_set f c.scheduler v

theorem get_set_of_ne {k k' : Key} (c : Config) (v : k.kind.Value) (h : k ≠ k') :
    k'.get (k.set c v) = k'.get c := by
  cases k with
  | deploymentId =>
    cases k' with
    | deploymentId => exact absurd rfl h
    | _ => rfl
  | database f =>
    cases k' with
    | database g => exact Database.layout.get_set_of_ne c.database v fun hfg => h (hfg ▸ rfl)
    | _ => rfl
  | queue f =>
    cases k' with
    | queue g => exact Queue.layout.get_set_of_ne c.queue v fun hfg => h (hfg ▸ rfl)
    | _ => rfl
  | downstream f =>
    cases k' with
    | downstream g => exact Downstream.layout.get_set_of_ne c.downstream v fun hfg => h (hfg ▸ rfl)
    | _ => rfl
  | pending f =>
    cases k' with
    | pending g => exact Pending.layout.get_set_of_ne c.pending v fun hfg => h (hfg ▸ rfl)
    | _ => rfl
  | scheduler f =>
    cases k' with
    | scheduler g => exact Scheduling.layout.get_set_of_ne c.scheduler v fun hfg => h (hfg ▸ rfl)
    | _ => rfl

/-- Settings that agree one by one are the same. -/
theorem ext {c c' : Config} (h : ∀ k : Key, k.get c = k.get c') : c = c' := by
  refine Config.layout.ext fun part => ?_
  cases part with
  | deploymentId => exact h .deploymentId
  | database => exact Database.layout.ext fun f => h (.database f)
  | queue => exact Queue.layout.ext fun f => h (.queue f)
  | downstream => exact Downstream.layout.ext fun f => h (.downstream f)
  | pending => exact Pending.layout.ext fun f => h (.pending f)
  | scheduler => exact Scheduling.layout.ext fun f => h (.scheduler f)

end Settings

section Environment

/-- The settings with a variable, in the order in which the variables are taken up. -/
def overridden : List Key := [
  .deploymentId, .database .url, .database .maxConnections, .queue .kind, .queue .inbound,
  .queue .outbound, .queue .deadLetter, .queue .region, .queue .workers, .queue .maxDeliveryCount,
  .downstream .baseUrl, .downstream .tokenUrl, .downstream .clientId, .downstream .clientSecret,
  .downstream .scope, .downstream .timeoutSecs, .pending .pendingWaitIntervalMinutes,
  .pending .escalationWaitIntervalDays, .pending .deletionWaitIntervalDays,
  .pending .exceptionLimitInHours, .pending .processingReclaimMinutes, .scheduler .enabled,
  .scheduler .runIntervalSecs]

theorem overridden_nodup : overridden.Nodup := by decide

theorem mem_overridden (k : Key) : k ∈ overridden ∨ k.variableName? = none := by
  cases k with
  | deploymentId => decide
  | database f | queue f | downstream f | pending f | scheduler f => cases f <;> decide

def asVariable? (k : Key) : Option Variable :=
  k.variableName?.map fun name => variableFor name k.kind.ofVariable k.set

theorem overrides_eq : overrides = overridden.filterMap asVariable? := rfl

variable {k k' : Key} {v : Variable} {env : Environment}

/-- A variable gives its own setting its value, if it is set and suits it. -/
theorem get_apply (h : k.asVariable? = some v) (c : Config) :
    k.get (v.apply env c) = (k.fromVariable? env).getD (k.get c) := by
  obtain ⟨name, hname, rfl⟩ := Option.map_eq_some_iff.mp h
  have hfrom : k.fromVariable? env = (env name).bind k.kind.ofVariable := by
    rw [fromVariable?, hname, Option.bind_some]
  rw [hfrom]
  simp only [Variable.apply, variableFor]
  cases env name with
  | none => rfl
  | some text =>
    rw [Option.bind_some]
    cases hread : k.kind.ofVariable text with
    | none => simp only [hread, Option.getD_none]
    | some x => simp only [hread, Option.getD_some, get_set]

/-- A variable leaves all settings alone but its own. -/
theorem get_apply_of_ne (h : k.asVariable? = some v) (hne : k ≠ k') (c : Config) :
    k'.get (v.apply env c) = k'.get c := by
  obtain ⟨name, -, rfl⟩ := Option.map_eq_some_iff.mp h
  simp only [Variable.apply, variableFor]
  cases env name with
  | none => rfl
  | some text =>
    cases hread : k.kind.ofVariable text with
    | none => simp only [hread]
    | some x => simp only [hread, get_set_of_ne c x hne]

/-- What variables leave of the settings that are not theirs. -/
theorem get_applyAll_of_notMem {keys : List Key} (h : k ∉ keys) (c : Config) :
    k.get ((keys.filterMap asVariable?).foldl (fun c v => v.apply env c) c) = k.get c := by
  induction keys generalizing c with
  | nil => rfl
  | cons k' rest ih =>
    obtain ⟨hne, hrest⟩ := List.ne_and_not_mem_of_not_mem_cons h
    rw [List.filterMap_cons]
    cases hv : k'.asVariable? with
    | none => exact ih hrest c
    | some v =>
      simp only [List.foldl_cons]
      rw [ih hrest, get_apply_of_ne hv hne.symm]

theorem get_applyAll {keys : List Key} (hnodup : keys.Nodup) (h : k ∈ keys) (c : Config) :
    k.get ((keys.filterMap asVariable?).foldl (fun c v => v.apply env c) c) =
      (k.fromVariable? env).getD (k.get c) := by
  induction keys generalizing c with
  | nil => cases h
  | cons k' rest ih =>
    obtain ⟨hnew, hrest⟩ := List.nodup_cons.mp hnodup
    rw [List.filterMap_cons]
    cases hv : k'.asVariable? with
    | none =>
      rcases List.mem_cons.mp h with rfl | hmem
      · have hnone : k.variableName? = none := Option.map_eq_none_iff.mp hv
        have hunset : k.fromVariable? env = none := by
          rw [fromVariable?, hnone]
          rfl
        rw [hunset]
        exact get_applyAll_of_notMem hnew c
      · exact ih hrest hmem c
    | some v =>
      simp only [List.foldl_cons]
      rcases List.mem_cons.mp h with rfl | hmem
      · rw [get_applyAll_of_notMem hnew, get_apply hv]
      · have hne : k' ≠ k := fun hsame => hnew (hsame ▸ hmem)
        rw [ih hrest hmem, get_apply_of_ne hv hne]

/-- The environment goes before what was there, setting by setting. -/
theorem get_overriddenBy (k : Key) (c : Config) (env : Environment) :
    k.get (c.overriddenBy env) = (k.fromVariable? env).getD (k.get c) := by
  unfold overriddenBy
  rw [overrides_eq]
  rcases k.mem_overridden with hmem | hnone
  · exact get_applyAll overridden_nodup hmem c
  · by_cases hmem : k ∈ overridden
    · exact get_applyAll overridden_nodup hmem c
    · have hunset : k.fromVariable? env = none := by
        rw [fromVariable?, hnone]
        rfl
      rw [hunset]
      exact get_applyAll_of_notMem hmem c

end Environment

section File

/-- A field of a section that is taken up when the file has it, over its defaults. -/
theorem get_section {σ φ : Type} [DecidableEq φ] {L : Layout σ φ} {settings : List (Setting σ)}
    (hsettings : settings = L.settings) {said : Option Toml.Value} {s₀ s : σ}
    (h : match said with
      | some v => takeSection settings s₀ v = some s
      | none => s = s₀) (f : φ) :
    L.get f s = ((said.bind (L.said? f)).bind (L.read f)).getD (L.get f s₀) := by
  subst hsettings
  cases said with
  | none => exact congrArg (L.get f) h
  | some v => exact (Layout.takeSection_holds h f).get_eq

/-- A file gives each setting the value that it says, and the others keep their defaults. -/
theorem get_takeEntries {doc : List (String × Toml.Value)} {c : Config}
    (h : takeEntries settings {} doc = some c) (k : Key) :
    k.get c = (k.fromFile? doc).getD (k.get {}) := by
  rw [settings_eq] at h
  have hparts : ∀ part, Config.layout.Holds part (valueOf? doc (Config.layout.key part)) {} c :=
    Layout.takeEntries_holds h
  cases k with
  | deploymentId => exact (hparts .deploymentId).get_eq
  | database f => exact get_section databaseSettings_eq (hparts .database) f
  | queue f => exact get_section queueSettings_eq (hparts .queue) f
  | downstream f => exact get_section downstreamSettings_eq (hparts .downstream) f
  | pending f => exact get_section pendingSettings_eq (hparts .pending) f
  | scheduler f => exact get_section schedulerSettings_eq (hparts .scheduler) f

end File

end Key

section Load

variable {files : Lookup} {path : Option String} {env : Environment} {found : Option Entry}

/-- Whether something is the first that stands at one of some paths, or nothing
stands at any of them. -/
def IsFirst (files : Lookup) (paths : List String) : Option Entry → Prop
  | none => ∀ p ∈ paths, files p = none
  | some entry => ∃ before p after, paths = before ++ p :: after ∧
      (∀ earlier ∈ before, files earlier = none) ∧ files p = some entry

/-- Whether what was found can be read, and its table gives settings. Nothing
that was found is read as an empty table. -/
def Gives (found : Option Entry) (doc : List (String × Toml.Value)) (c : Config) : Prop :=
  takeEntries settings {} doc = some c ∧
    match found with
    | none => doc = []
    | some entry => ∃ bytes text, entry = .file bytes ∧ String.fromUTF8? bytes = some text ∧
        Toml.parse text = some doc

theorem isFirst_chosen (files : Lookup) (path : Option String) (env : Environment) :
    IsFirst files (candidates path env) ((chosen? files path env).bind files) := by
  unfold chosen?
  cases hfind : (candidates path env).find? fun name => (files name).isSome with
  | none =>
    intro p hp
    simpa using List.find?_eq_none.mp hfind p hp
  | some p =>
    obtain ⟨hsome, before, after, hsplit, habsent⟩ := List.find?_eq_some_iff_append.mp hfind
    obtain ⟨entry, hentry⟩ := Option.isSome_iff_exists.mp hsome
    rw [Option.bind_some, hentry]
    refine ⟨before, p, after, hsplit, fun earlier hmem => ?_, hentry⟩
    simpa using habsent earlier hmem

theorem readEntry_eq_ok {entry : Entry} {text : String} :
    readEntry entry = .ok text ↔
      ∃ bytes, entry = .file bytes ∧ String.fromUTF8? bytes = some text := by
  cases entry with
  | directory => simp [readEntry]
  | closed reason => simp [readEntry]
  | file bytes =>
    unfold readEntry
    cases htext : String.fromUTF8? bytes <;> simp [htext]

theorem ofEntry_eq_ok {entry : Entry} {c : Config} :
    ofEntry entry = .ok c ↔ ∃ text, readEntry entry = .ok text ∧ parse text = some c := by
  unfold ofEntry
  cases readEntry entry with
  | error failure => simp
  | ok text => cases hparse : parse text <;> simp [hparse]

/-- An entry that gives no settings cannot be read, or not be understood. -/
theorem ofEntry_eq_error {entry : Entry} {e : ConfigError} (h : ofEntry entry = .error e) :
    (∃ failure, e = .unreadable failure) ∨ e = .malformed := by
  unfold ofEntry at h
  split at h
  · exact Or.inl ⟨_, (Except.error.inj h).symm⟩
  · split at h
    · cases h
    · exact Or.inr (Except.error.inj h).symm

/-- The settings of the file that counts are what it gives. -/
theorem ofFiles_eq_ok {c : Config} :
    ofFiles files path env = .ok c ↔ ∃ doc, Gives ((chosen? files path env).bind files) doc c := by
  unfold ofFiles Gives
  cases (chosen? files path env).bind files with
  | none =>
    constructor
    · intro h
      obtain rfl := Except.ok.inj h
      exact ⟨[], rfl, rfl⟩
    · rintro ⟨_, hgives, rfl⟩
      exact congrArg Except.ok (Option.some.inj hgives)
  | some entry =>
    simp only [ofEntry_eq_ok, readEntry_eq_ok, parse, Option.bind_eq_some_iff]
    constructor
    · rintro ⟨text, ⟨bytes, rfl, htext⟩, doc, hdoc, hgives⟩
      exact ⟨doc, hgives, bytes, text, rfl, htext, hdoc⟩
    · rintro ⟨doc, hgives, bytes, text, rfl, htext, hdoc⟩
      exact ⟨text, ⟨bytes, rfl, htext⟩, doc, hdoc, hgives⟩

theorem ofFiles_eq_error {e : ConfigError} (h : ofFiles files path env = .error e) :
    (∃ failure, e = .unreadable failure) ∨ e = .malformed := by
  unfold ofFiles at h
  split at h
  · cases h
  · exact ofEntry_eq_error h

/-- What a load makes of the settings that the files give. -/
theorem load_of_ofFiles {base : Config} (h : ofFiles files path env = .ok base) :
    load files path env = match (base.overriddenBy env).violation? with
      | none => .ok (base.overriddenBy env)
      | some v => .error (.invalid v) := by
  unfold load
  rw [h]
  rfl

theorem load_eq_ok {c : Config} :
    load files path env = .ok c ↔
      ∃ base, ofFiles files path env = .ok base ∧ base.overriddenBy env = c ∧
        c.violation? = none := by
  constructor
  · intro h
    obtain ⟨base, hbase, -⟩ := exists_of_bind_eq_ok h
    rw [load_of_ofFiles hbase] at h
    split at h
    · next haccepted =>
      obtain rfl := Except.ok.inj h
      exact ⟨base, hbase, rfl, haccepted⟩
    · cases h
  · rintro ⟨base, hbase, rfl, haccepted⟩
    rw [load_of_ofFiles hbase, haccepted]

end Load

/-- Where the settings come from. Of the path that was asked for, the one that
the environment names and the usual ones, in this order, the first at which
something stands counts, and what stands at the others does not matter. A load
succeeds exactly when that can be read and understood, or nothing stands at any
of them, and the settings with the variables taken up meet all rules. Its
settings are the ones that have, key by key, the value of their own variable if
that is set and suits them, else the value that the file says, else the default.
What cannot be read or understood is an error, and so is the first broken rule. -/
theorem load_precedence (files : Lookup) (path : Option String) (env : Environment) :
    ∃ found, IsFirst files (path.toList ++ (env "HEARING_SYNC_CONFIG").toList ++
        ["config.toml", "hearing-sync.toml", "./config/config.toml",
          "/etc/hearing-sync/config.toml"]) found ∧
      (∀ c, load files path env = .ok c ↔ c.violation? = none ∧ ∃ doc base, Gives found doc base ∧
        ∀ k : Key, k.get c = (k.fromVariable? env).getD ((k.fromFile? doc).getD (k.get {}))) ∧
      ((∃ c, load files path env = .ok c) ↔
        ∃ doc base, Gives found doc base ∧ (base.overriddenBy env).violation? = none) ∧
      (∀ doc base v, Gives found doc base → (base.overriddenBy env).violation? = some v →
        load files path env = .error (.invalid v)) ∧
      ((∀ doc base, ¬ Gives found doc base) →
        (∃ failure, load files path env = .error (.unreadable failure)) ∨
          load files path env = .error .malformed) := by
  have hvalues : ∀ {doc base}, Gives ((chosen? files path env).bind files) doc base →
      ∀ k : Key, k.get (base.overriddenBy env) =
        (k.fromVariable? env).getD ((k.fromFile? doc).getD (k.get {})) := by
    intro doc base hgives k
    rw [k.get_overriddenBy, Key.get_takeEntries hgives.1]
  refine ⟨_, isFirst_chosen files path env, fun c => ?_, ?_, ?_, ?_⟩
  · rw [load_eq_ok]
    constructor
    · rintro ⟨base, hbase, rfl, haccepted⟩
      obtain ⟨doc, hgives⟩ := ofFiles_eq_ok.mp hbase
      exact ⟨haccepted, doc, base, hgives, hvalues hgives⟩
    · rintro ⟨haccepted, doc, base, hgives, hcarried⟩
      refine ⟨base, ofFiles_eq_ok.mpr ⟨doc, hgives⟩, Key.ext fun k => ?_, haccepted⟩
      rw [hvalues hgives, hcarried]
  · constructor
    · rintro ⟨c, hload⟩
      obtain ⟨base, hbase, rfl, haccepted⟩ := load_eq_ok.mp hload
      obtain ⟨doc, hgives⟩ := ofFiles_eq_ok.mp hbase
      exact ⟨doc, base, hgives, haccepted⟩
    · rintro ⟨doc, base, hgives, haccepted⟩
      exact ⟨_, load_eq_ok.mpr ⟨base, ofFiles_eq_ok.mpr ⟨doc, hgives⟩, rfl, haccepted⟩⟩
  · intro doc base v hgives hbroken
    rw [load_of_ofFiles (ofFiles_eq_ok.mpr ⟨doc, hgives⟩), hbroken]
  · intro hnone
    cases hfiles : ofFiles files path env with
    | ok base =>
      obtain ⟨doc, hgives⟩ := ofFiles_eq_ok.mp hfiles
      exact absurd hgives (hnone doc base)
    | error e =>
      have hload : load files path env = .error e := by
        unfold load
        rw [hfiles]
        rfl
      rcases ofFiles_eq_error hfiles with ⟨failure, rfl⟩ | rfl
      · exact Or.inl ⟨failure, hload⟩
      · exact Or.inr hload

end HearingRelay.Config
