import HearingRelay.Config.File
import Mathlib.Data.List.Induction
import Mathlib.Data.List.Nodup

/-!
What a settings file says of the fields of a section. A layout lists the fields
of a section with their keys; each field is read and set on its own, and setting
one leaves the others as they are. A section that is taken up from a file
therefore has, field by field, the value that the file says, or else the one that
it had before.
-/

namespace HearingRelay.Config

section Layout

/-- The value that a table has under a key, the last one if there were several. -/
def valueOf? (entries : List (String × Toml.Value)) (key : String) : Option Toml.Value :=
  (entries.reverse.find? (·.1 == key)).map (·.2)

theorem valueOf?_append (entries : List (String × Toml.Value)) (e : String × Toml.Value)
    (key : String) :
    valueOf? (entries ++ [e]) key = if e.1 = key then some e.2 else valueOf? entries key := by
  unfold valueOf?
  rw [List.reverse_append, List.reverse_singleton, List.singleton_append, List.find?_cons]
  by_cases hkey : e.1 = key
  · simp [hkey]
  · have hskip : (e.1 == key) = false := beq_eq_false_iff_ne.mpr hkey
    simp only [hskip, if_neg hkey]

theorem takeEntries_append {σ : Type} (settings : List (Setting σ)) (s : σ)
    (entries : List (String × Toml.Value)) (e : String × Toml.Value) :
    takeEntries settings s (entries ++ [e]) = (takeEntries settings s entries).bind fun s =>
      match settings.find? (·.key == e.1) with
      | some setting => setting.take s e.2
      | none => some s := by
  simp only [takeEntries, List.foldlM_append, List.foldlM_cons, List.foldlM_nil, bind_pure]
  rfl

/-- The fields of a section, which are independent of each other. -/
structure Layout (σ φ : Type) where
  Value : φ → Type
  /-- The fields in the order in which an array gives them. -/
  fields : List φ
  key : φ → String
  read : (f : φ) → Toml.Value → Option (Value f)
  get : (f : φ) → σ → Value f
  set : (f : φ) → σ → Value f → σ
  complete : ∀ f, f ∈ fields
  keys_nodup : (fields.map key).Nodup
  get_set : ∀ f s v, get f (set f s v) = v
  get_set_of_ne : ∀ {f g} s v, f ≠ g → get g (set f s v) = get g s
  /-- There is nothing in a section but its fields. -/
  ext : ∀ {s s'}, (∀ f, get f s = get f s') → s = s'

namespace Layout

variable {σ φ : Type} (L : Layout σ φ)

def setting (f : φ) : Setting σ := Config.setting (L.key f) (L.read f) (L.set f)

def settings : List (Setting σ) := L.fields.map L.setting

theorem eq_of_key_eq {f g : φ} (h : L.key f = L.key g) : f = g :=
  List.inj_on_of_nodup_map L.keys_nodup (L.complete f) (L.complete g) h

theorem fields_nodup : L.fields.Nodup := .of_map _ L.keys_nodup

/-- A setting that is found under a key is the one of the field with that key. -/
theorem exists_of_find?_settings {key : String} {found : Setting σ}
    (h : L.settings.find? (·.key == key) = some found) :
    ∃ g, L.key g = key ∧ L.setting g = found := by
  obtain ⟨g, -, rfl⟩ := List.mem_map.mp (List.mem_of_find?_eq_some h)
  have hkey : (L.setting g).key = key := by simpa using List.find?_some h
  exact ⟨g, hkey, rfl⟩

theorem find?_settings (f : φ) : L.settings.find? (·.key == L.key f) = some (L.setting f) := by
  cases hfind : L.settings.find? (·.key == L.key f) with
  | none =>
    have hmem : L.setting f ∈ L.settings := List.mem_map_of_mem (L.complete f)
    exact absurd (beq_self_eq_true _) (List.find?_eq_none.mp hfind _ hmem)
  | some found =>
    obtain ⟨g, hkey, rfl⟩ := L.exists_of_find?_settings hfind
    rw [L.eq_of_key_eq hkey]

/-- Taking up a value gives it to one field. -/
theorem take_eq_some {f : φ} {s s' : σ} {v : Toml.Value} :
    (L.setting f).take s v = some s' ↔ ∃ x, L.read f v = some x ∧ L.set f s x = s' :=
  Option.map_eq_some_iff

/-- Whether a field has the value that is said of it, or the one from before when
nothing is said. -/
def Holds (f : φ) (said : Option Toml.Value) (s s' : σ) : Prop :=
  match said with
  | some v => L.read f v = some (L.get f s')
  | none => L.get f s' = L.get f s

variable {L} {f : φ} {said : Option Toml.Value} {s s' s'' : σ}

theorem Holds.get_eq (h : L.Holds f said s s') :
    L.get f s' = (said.bind (L.read f)).getD (L.get f s) := by
  cases said with
  | none => exact h
  | some v => rw [Option.bind_some, show L.read f v = some (L.get f s') from h, Option.getD_some]

theorem Holds.of_get_eq (h : L.Holds f said s s') (hkept : L.get f s'' = L.get f s') :
    L.Holds f said s s'' := by
  cases said with
  | none => exact hkept.trans h
  | some v => exact (show L.read f v = _ from h).trans (congrArg some hkept.symm)

/-- A table sets each field to the value under its key. -/
theorem takeEntries_holds {entries : List (String × Toml.Value)}
    (h : takeEntries L.settings s entries = some s') (f : φ) :
    L.Holds f (valueOf? entries (L.key f)) s s' := by
  induction entries using List.reverseRecOn generalizing s' with
  | nil =>
    obtain rfl : s = s' := Option.some.inj h
    exact rfl
  | append_singleton entries e ih =>
    rw [takeEntries_append, Option.bind_eq_some_iff] at h
    obtain ⟨s₁, hrest, hlast⟩ := h
    rw [valueOf?_append]
    by_cases hkey : e.1 = L.key f
    · rw [if_pos hkey]
      rw [hkey, L.find?_settings f] at hlast
      obtain ⟨x, hread, rfl⟩ := L.take_eq_some.mp hlast
      exact hread.trans (congrArg some (L.get_set f s₁ x).symm)
    · rw [if_neg hkey]
      refine (ih hrest).of_get_eq ?_
      cases hfind : L.settings.find? (·.key == e.1) with
      | none =>
        rw [hfind] at hlast
        obtain rfl : s₁ = s' := Option.some.inj hlast
        rfl
      | some found =>
        rw [hfind] at hlast
        obtain ⟨g, hother, rfl⟩ := L.exists_of_find?_settings hfind
        obtain ⟨x, -, rfl⟩ := L.take_eq_some.mp hlast
        refine L.get_set_of_ne s₁ x ?_
        rintro rfl
        exact hkey hother.symm

variable [DecidableEq φ]

/-- An array sets the fields in their order, as far as it goes. -/
theorem takeItems_holds {fields : List φ} (hnodup : fields.Nodup) {items : List Toml.Value}
    (h : ((fields.map L.setting).zip items).foldlM (fun s p => p.1.take s p.2) s = some s')
    (f : φ) : L.Holds f (((fields.zip items).find? (·.1 == f)).map (·.2)) s s' := by
  induction fields generalizing items s with
  | nil =>
    obtain rfl : s = s' := Option.some.inj h
    exact rfl
  | cons g rest ih =>
    cases items with
    | nil =>
      obtain rfl : s = s' := Option.some.inj h
      exact rfl
    | cons v items =>
      obtain ⟨hnew, hrest⟩ := List.nodup_cons.mp hnodup
      rw [List.map_cons, List.zip_cons_cons, List.foldlM_cons, Option.bind_eq_bind,
        Option.bind_eq_some_iff] at h
      obtain ⟨s₁, hfirst, h⟩ := h
      obtain ⟨x, hread, rfl⟩ := L.take_eq_some.mp hfirst
      have hlater := ih hrest h
      rw [List.zip_cons_cons, List.find?_cons]
      by_cases hgf : g = f
      · subst hgf
        -- The rest of the array does not set the field again.
        have hnone : (rest.zip items).find? (·.1 == g) = none := by
          refine List.find?_eq_none.mpr fun p hp hsame => hnew ?_
          exact beq_iff_eq.mp hsame ▸ (List.of_mem_zip hp).1
        rw [hnone] at hlater
        have hkept : L.get g s' = x := Eq.trans hlater (L.get_set g s x)
        simp only [beq_self_eq_true, Option.map_some]
        exact hread.trans (congrArg some hkept.symm)
      · have hskip : (g == f) = false := beq_eq_false_iff_ne.mpr hgf
        simp only [hskip]
        have hbefore := L.get_set_of_ne s x hgf
        generalize ((rest.zip items).find? (·.1 == f)).map (·.2) = said at hlater ⊢
        cases said with
        | none => exact Eq.trans hlater hbefore
        | some w => exact hlater

/-- What a section says of a field: by its key in a table, by its place in an array. -/
def said? (L : Layout σ φ) (f : φ) : Toml.Value → Option Toml.Value
  | .table entries => valueOf? entries (L.key f)
  | .array items => ((L.fields.zip items).find? (·.1 == f)).map (·.2)
  | _ => none

/-- A section that is taken up has the values that are said of its fields. -/
theorem takeSection_holds {v : Toml.Value} (h : takeSection L.settings s v = some s') (f : φ) :
    L.Holds f (L.said? f v) s s' := by
  cases v with
  | table entries => exact takeEntries_holds h f
  | array items => exact takeItems_holds L.fields_nodup h f
  | dateTime literal =>
    obtain rfl : s = s' := Option.some.inj h
    exact rfl
  | text | integer | float | bool => cases h

end Layout

end Layout

inductive Kind where
  | text
  | count (high : Nat)
  | flag

namespace Kind

abbrev Value : Kind → Type
  | text => String
  | count _ => Nat
  | flag => Bool

def ofFile : (t : Kind) → Toml.Value → Option t.Value
  | text => readText
  | count high => readCount high
  | flag => readBool

end Kind

section Sections

inductive Database.Field where
  | url
  | maxConnections
deriving DecidableEq

def Database.Field.kind : Database.Field → Kind
  | url => .text
  | maxConnections => .count Bounds.maxUInt32

def Database.layout : Layout Database Database.Field where
  Value f := f.kind.Value
  fields := [.url, .maxConnections]
  key
    | .url => "url"
    | .maxConnections => "max_connections"
  read f := f.kind.ofFile
  get
    | .url => Database.url
    | .maxConnections => Database.maxConnections
  set
    | .url, s, v => { s with url := v }
    | .maxConnections, s, v => { s with maxConnections := v }
  complete f := by cases f <;> decide
  keys_nodup := by decide
  get_set f _ _ := by cases f <;> rfl
  get_set_of_ne {f g} _ _ h := by
    cases f <;> cases g <;> first | rfl | exact absurd rfl h
  ext {s s'} h := by
    cases s
    cases s'
    rw [Database.mk.injEq]
    exact ⟨h .url, h .maxConnections⟩

inductive Queue.Field where
  | kind
  | inbound
  | outbound
  | deadLetter
  | visibilityTimeoutSecs
  | pollBatchSize
  | pollIntervalMs
  | workers
  | maxDeliveryCount
  | region
deriving DecidableEq

def Queue.Field.type : Queue.Field → Kind
  | kind | inbound | outbound | deadLetter | region => .text
  | visibilityTimeoutSecs | pollBatchSize | maxDeliveryCount => .count Bounds.maxUInt32
  | pollIntervalMs | workers => .count Bounds.maxUInt64

def Queue.layout : Layout Queue Queue.Field where
  Value f := f.type.Value
  fields := [.kind, .inbound, .outbound, .deadLetter, .visibilityTimeoutSecs, .pollBatchSize,
    .pollIntervalMs, .workers, .maxDeliveryCount, .region]
  key
    | .kind => "type"
    | .inbound => "inbound"
    | .outbound => "outbound"
    | .deadLetter => "dead_letter"
    | .visibilityTimeoutSecs => "visibility_timeout_secs"
    | .pollBatchSize => "poll_batch_size"
    | .pollIntervalMs => "poll_interval_ms"
    | .workers => "workers"
    | .maxDeliveryCount => "max_delivery_count"
    | .region => "region"
  read f := f.type.ofFile
  get
    | .kind => Queue.kind
    | .inbound => Queue.inbound
    | .outbound => Queue.outbound
    | .deadLetter => Queue.deadLetter
    | .visibilityTimeoutSecs => Queue.visibilityTimeoutSecs
    | .pollBatchSize => Queue.pollBatchSize
    | .pollIntervalMs => Queue.pollIntervalMs
    | .workers => Queue.workers
    | .maxDeliveryCount => Queue.maxDeliveryCount
    | .region => Queue.region
  set
    | .kind, s, v => { s with kind := v }
    | .inbound, s, v => { s with inbound := v }
    | .outbound, s, v => { s with outbound := v }
    | .deadLetter, s, v => { s with deadLetter := v }
    | .visibilityTimeoutSecs, s, v => { s with visibilityTimeoutSecs := v }
    | .pollBatchSize, s, v => { s with pollBatchSize := v }
    | .pollIntervalMs, s, v => { s with pollIntervalMs := v }
    | .workers, s, v => { s with workers := v }
    | .maxDeliveryCount, s, v => { s with maxDeliveryCount := v }
    | .region, s, v => { s with region := v }
  complete f := by cases f <;> decide
  keys_nodup := by decide
  get_set f _ _ := by cases f <;> rfl
  get_set_of_ne {f g} _ _ h := by
    cases f <;> cases g <;> first | rfl | exact absurd rfl h
  ext {s s'} h := by
    cases s
    cases s'
    rw [Queue.mk.injEq]
    exact ⟨h .kind, h .inbound, h .outbound, h .deadLetter, h .visibilityTimeoutSecs,
      h .pollBatchSize, h .pollIntervalMs, h .workers, h .maxDeliveryCount, h .region⟩

inductive Downstream.Field where
  | baseUrl
  | tokenUrl
  | clientId
  | clientSecret
  | scope
  | timeoutSecs
  | connectTimeoutSecs
deriving DecidableEq

def Downstream.Field.kind : Downstream.Field → Kind
  | baseUrl | tokenUrl | clientId | clientSecret | scope => .text
  | timeoutSecs | connectTimeoutSecs => .count Bounds.maxUInt64

def Downstream.layout : Layout Downstream Downstream.Field where
  Value f := f.kind.Value
  fields := [.baseUrl, .tokenUrl, .clientId, .clientSecret, .scope, .timeoutSecs,
    .connectTimeoutSecs]
  key
    | .baseUrl => "base_url"
    | .tokenUrl => "token_url"
    | .clientId => "client_id"
    | .clientSecret => "client_secret"
    | .scope => "scope"
    | .timeoutSecs => "timeout_secs"
    | .connectTimeoutSecs => "connect_timeout_secs"
  read f := f.kind.ofFile
  get
    | .baseUrl => Downstream.baseUrl
    | .tokenUrl => Downstream.tokenUrl
    | .clientId => Downstream.clientId
    | .clientSecret => Downstream.clientSecret
    | .scope => Downstream.scope
    | .timeoutSecs => Downstream.timeoutSecs
    | .connectTimeoutSecs => Downstream.connectTimeoutSecs
  set
    | .baseUrl, s, v => { s with baseUrl := v }
    | .tokenUrl, s, v => { s with tokenUrl := v }
    | .clientId, s, v => { s with clientId := v }
    | .clientSecret, s, v => { s with clientSecret := v }
    | .scope, s, v => { s with scope := v }
    | .timeoutSecs, s, v => { s with timeoutSecs := v }
    | .connectTimeoutSecs, s, v => { s with connectTimeoutSecs := v }
  complete f := by cases f <;> decide
  keys_nodup := by decide
  get_set f _ _ := by cases f <;> rfl
  get_set_of_ne {f g} _ _ h := by
    cases f <;> cases g <;> first | rfl | exact absurd rfl h
  ext {s s'} h := by
    cases s
    cases s'
    rw [Downstream.mk.injEq]
    exact ⟨h .baseUrl, h .tokenUrl, h .clientId, h .clientSecret, h .scope, h .timeoutSecs,
      h .connectTimeoutSecs⟩

inductive Pending.Field where
  | pendingWaitIntervalMinutes
  | escalationWaitIntervalDays
  | deletionWaitIntervalDays
  | exceptionLimitInHours
  | processingReclaimMinutes
deriving DecidableEq

def Pending.Field.kind (_ : Pending.Field) : Kind := .count Bounds.maxUInt64

def Pending.layout : Layout Pending Pending.Field where
  Value f := f.kind.Value
  fields := [.pendingWaitIntervalMinutes, .escalationWaitIntervalDays, .deletionWaitIntervalDays,
    .exceptionLimitInHours, .processingReclaimMinutes]
  key
    | .pendingWaitIntervalMinutes => "pending_wait_interval_minutes"
    | .escalationWaitIntervalDays => "escalation_wait_interval_days"
    | .deletionWaitIntervalDays => "deletion_wait_interval_days"
    | .exceptionLimitInHours => "exception_limit_in_hours"
    | .processingReclaimMinutes => "processing_reclaim_minutes"
  read f := f.kind.ofFile
  get
    | .pendingWaitIntervalMinutes => Pending.pendingWaitIntervalMinutes
    | .escalationWaitIntervalDays => Pending.escalationWaitIntervalDays
    | .deletionWaitIntervalDays => Pending.deletionWaitIntervalDays
    | .exceptionLimitInHours => Pending.exceptionLimitInHours
    | .processingReclaimMinutes => Pending.processingReclaimMinutes
  set
    | .pendingWaitIntervalMinutes, s, v => { s with pendingWaitIntervalMinutes := v }
    | .escalationWaitIntervalDays, s, v => { s with escalationWaitIntervalDays := v }
    | .deletionWaitIntervalDays, s, v => { s with deletionWaitIntervalDays := v }
    | .exceptionLimitInHours, s, v => { s with exceptionLimitInHours := v }
    | .processingReclaimMinutes, s, v => { s with processingReclaimMinutes := v }
  complete f := by cases f <;> decide
  keys_nodup := by decide
  get_set f _ _ := by cases f <;> rfl
  get_set_of_ne {f g} _ _ h := by
    cases f <;> cases g <;> first | rfl | exact absurd rfl h
  ext {s s'} h := by
    cases s
    cases s'
    rw [Pending.mk.injEq]
    exact ⟨h .pendingWaitIntervalMinutes, h .escalationWaitIntervalDays,
      h .deletionWaitIntervalDays, h .exceptionLimitInHours, h .processingReclaimMinutes⟩

inductive Scheduling.Field where
  | enabled
  | runIntervalSecs
deriving DecidableEq

def Scheduling.Field.kind : Scheduling.Field → Kind
  | enabled => .flag
  | runIntervalSecs => .count Bounds.maxUInt64

def Scheduling.layout : Layout Scheduling Scheduling.Field where
  Value f := f.kind.Value
  fields := [.enabled, .runIntervalSecs]
  key
    | .enabled => "enabled"
    | .runIntervalSecs => "run_interval_secs"
  read f := f.kind.ofFile
  get
    | .enabled => Scheduling.enabled
    | .runIntervalSecs => Scheduling.runIntervalSecs
  set
    | .enabled, s, v => { s with enabled := v }
    | .runIntervalSecs, s, v => { s with runIntervalSecs := v }
  complete f := by cases f <;> decide
  keys_nodup := by decide
  get_set f _ _ := by cases f <;> rfl
  get_set_of_ne {f g} _ _ h := by
    cases f <;> cases g <;> first | rfl | exact absurd rfl h
  ext {s s'} h := by
    cases s
    cases s'
    rw [Scheduling.mk.injEq]
    exact ⟨h .enabled, h .runIntervalSecs⟩

end Sections

section Document

inductive Part where
  | deploymentId
  | database
  | queue
  | downstream
  | pending
  | scheduler
deriving DecidableEq

/-- The parts as fields of the settings. A section is taken up over its defaults. -/
def layout : Layout Config Part where
  Value
    | .deploymentId => String
    | .database => Database
    | .queue => Queue
    | .downstream => Downstream
    | .pending => Pending
    | .scheduler => Scheduling
  fields := [.deploymentId, .database, .queue, .downstream, .pending, .scheduler]
  key
    | .deploymentId => "deployment_id"
    | .database => "database"
    | .queue => "queue"
    | .downstream => "downstream"
    | .pending => "pending"
    | .scheduler => "scheduler"
  read
    | .deploymentId => readText
    | .database => takeSection databaseSettings {}
    | .queue => takeSection queueSettings {}
    | .downstream => takeSection downstreamSettings {}
    | .pending => takeSection pendingSettings {}
    | .scheduler => takeSection schedulerSettings {}
  get
    | .deploymentId => Config.deploymentId
    | .database => Config.database
    | .queue => Config.queue
    | .downstream => Config.downstream
    | .pending => Config.pending
    | .scheduler => Config.scheduler
  set
    | .deploymentId, c, v => { c with deploymentId := v }
    | .database, c, v => { c with database := v }
    | .queue, c, v => { c with queue := v }
    | .downstream, c, v => { c with downstream := v }
    | .pending, c, v => { c with pending := v }
    | .scheduler, c, v => { c with scheduler := v }
  complete f := by cases f <;> decide
  keys_nodup := by decide
  get_set f _ _ := by cases f <;> rfl
  get_set_of_ne {f g} _ _ h := by
    cases f <;> cases g <;> first | rfl | exact absurd rfl h
  ext {s s'} h := by
    cases s
    cases s'
    rw [Config.mk.injEq]
    exact ⟨h .deploymentId, h .database, h .queue, h .downstream, h .pending, h .scheduler⟩

/-- The settings of a section, and of a file, are the fields of its layout. -/
theorem databaseSettings_eq : databaseSettings = Database.layout.settings := rfl

theorem queueSettings_eq : queueSettings = Queue.layout.settings := rfl

theorem downstreamSettings_eq : downstreamSettings = Downstream.layout.settings := rfl

theorem pendingSettings_eq : pendingSettings = Pending.layout.settings := rfl

theorem schedulerSettings_eq : schedulerSettings = Scheduling.layout.settings := rfl

theorem settings_eq : settings = layout.settings := rfl

end Document

end HearingRelay.Config
