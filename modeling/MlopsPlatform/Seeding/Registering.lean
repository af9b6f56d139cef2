import MlopsPlatform.Registry.AuditTrail
import MlopsPlatform.Seeding.SeedSample

/-!
# The registry of the sample

The first part of the seeder adds a row for each entry of `models.json` and fills two dictionaries
beside the tables. `ModelAs` and `VersionAs` say of a row that it stores what an entry says, and
`Mirrors` that the rows that are pending, and the entries of the dictionaries, are those of the
file, one for one. A key that is there already is rejected by the flush, so that no entry of a
dictionary is ever hidden by a later one (`Mirrors.model?_iff`, `Mirrors.version?_iff`).
`loads_seedModels` keeps `Mirrors` through the loops.
-/

namespace MlopsPlatform

open Transaction ChangeLog

/-- The tables have no rows. -/
structure SampleStore.Blank (s : SampleStore) : Prop where
  models : s.db.models.rows = []
  versions : s.db.versions.rows = []
  versionEvents : s.db.versionEvents.rows = []
  deployments : s.db.deployments.rows = []
  deploymentEvents : s.db.deploymentEvents.rows = []
  metrics : s.metrics.rows = []

/-- The foreign keys that are never null: what every row belongs to is there. -/
structure SampleStore.References (s : SampleStore) : Prop where
  versions : ∀ v ∈ s.db.versions, ∃ m ∈ s.db.models, m.id = v.modelId
  versionEvents : ∀ e ∈ s.db.versionEvents, ∃ v ∈ s.db.versions, v.id = e.modelVersionId
  deployments : ∀ d ∈ s.db.deployments, ∃ m ∈ s.db.models, m.id = d.modelId
  deploymentEvents : ∀ e ∈ s.db.deploymentEvents, ∃ d ∈ s.db.deployments, d.id = e.deploymentId
  metrics : ∀ m ∈ s.metrics, ∃ model ∈ s.db.models, model.id = m.modelId

/-- If the registry is empty, then so are all tables. -/
theorem SampleStore.References.blank {s : SampleStore} (h : s.References)
    (hmodels : s.db.models.rows = []) : s.Blank := by
  have hnone : ∀ m, m ∉ s.db.models := fun m hm => by
    rw [← Table.mem_rows, hmodels] at hm
    exact List.not_mem_nil hm
  have hversion : ∀ v, v ∉ s.db.versions := fun v hv => by
    obtain ⟨m, hm, -⟩ := h.versions v hv
    exact hnone m hm
  have hdeployment : ∀ d, d ∉ s.db.deployments := fun d hd => by
    obtain ⟨m, hm, -⟩ := h.deployments d hd
    exact hnone m hm
  refine ⟨hmodels, ?_, ?_, ?_, ?_, ?_⟩
  · exact List.eq_nil_iff_forall_not_mem.mpr hversion
  · refine List.eq_nil_iff_forall_not_mem.mpr fun e he => ?_
    obtain ⟨v, hv, -⟩ := h.versionEvents e he
    exact hversion v hv
  · exact List.eq_nil_iff_forall_not_mem.mpr hdeployment
  · refine List.eq_nil_iff_forall_not_mem.mpr fun e he => ?_
    obtain ⟨d, hd, -⟩ := h.deploymentEvents e he
    exact hdeployment d hd
  · refine List.eq_nil_iff_forall_not_mem.mpr fun m hm => ?_
    obtain ⟨model, hmodel, -⟩ := h.metrics m hm
    exact hnone model hmodel

/-- The value that a key is. -/
def Json.Key.json : Json.Key → Json
  | null => .null
  | bool value => .bool value
  | number digits => .number digits
  | text value => .string value

/-- A value that is a key is that key. -/
@[simp]
theorem Json.Key.key_json (k : Json.Key) : k.json.key = some k := by
  cases k <;> rfl

/-- The models of `models.json`. -/
def SampleFiles.specs (files : SampleFiles) : List Json := (files.models.bind Json.items).getD []

namespace Seeding

/-- A trail begins with the creation, and leads along the transition table to a stage. -/
structure Chronicles (trail : List ModelVersionEvent) (stage : LifecycleStage) : Prop where
  created : trail.head?.map ModelVersionEvent.event = some "created"
  replays : Replays ModelVersionEvent.fromStage ModelVersionEvent.toStage .draft
    (fun a b => canTransition a b = true) trail stage

/-! ## The trail of a version -/

section

variable {ctx : SeedContext} {t : Table ModelVersionEvent.id} {versionId : Uuid}

/-- A trail is continued along a chain of allowed transitions. -/
theorem chronicles_promotions {prev : LifecycleStage} {stages : List LifecycleStage}
    (h : Chronicles (t.select fun e => e.modelVersionId = versionId) prev)
    (hchain : (prev :: stages).IsChain fun a b => canTransition a b = true) :
    Chronicles ((t.insertAll (promotions ctx versionId prev stages)).select fun e =>
      e.modelVersionId = versionId) ((prev :: stages).getLast (List.cons_ne_nil _ _)) := by
  induction stages generalizing prev t with
  | nil => exact h
  | cons stage stages ih =>
    obtain ⟨hmove, hrest⟩ := List.isChain_cons_cons.mp hchain
    rw [List.getLast_cons (List.cons_ne_nil _ _)]
    refine ih ⟨?_, ?_⟩ hrest
    · -- The creation stays in front.
      obtain ⟨e, rest, htrail, -, -⟩ := h.replays.head
      have hcreated := h.created
      rw [Table.select_insert, htrail] at *
      exact hcreated
    · rw [Table.select_insert]
      simp only [newVersionEvent, versionEventRow, decide_true, if_true]
      exact h.replays.changed rfl hmove

/-- The chain of a stage leads to it along the transition table. -/
theorem stageChain_spec (stage : LifecycleStage) :
    ((.draft :: stageChain stage).IsChain fun a b => canTransition a b = true) ∧
      (LifecycleStage.draft :: stageChain stage).getLast (List.cons_ne_nil _ _) = stage := by
  cases stage <;> decide

/-- What `_record_lifecycle` records for a new version. -/
theorem chronicles_lifecycle (stage : LifecycleStage)
    (hnew : (t.select fun e => e.modelVersionId = versionId) = []) :
    Chronicles ((t.insertAll (lifecycle ctx versionId stage)).select fun e =>
      e.modelVersionId = versionId) stage := by
  obtain ⟨hchain, hlast⟩ := stageChain_spec stage
  have hcreated : Chronicles ((t.insert (newVersionEvent versionId "created" none .draft
      (ctx.userId "engineer"))).select fun e => e.modelVersionId = versionId) .draft := by
    rw [Table.select_insert, hnew]
    simp only [newVersionEvent, versionEventRow, decide_true, if_true, List.nil_append]
    exact ⟨rfl, .created rfl rfl⟩
  have hall := @chronicles_promotions ctx _ _ _ _ hcreated hchain
  rw [hlast] at hall
  exact hall

/-- The events along a chain are those of the version. -/
theorem modelVersionId_promotions {d : Table.Draft ModelVersionEvent.id} {prev : LifecycleStage}
    {stages : List LifecycleStage} (h : d ∈ promotions ctx versionId prev stages) (n : Uuid) :
    (d.1 n).modelVersionId = versionId := by
  induction stages generalizing prev with
  | nil => exact absurd h List.not_mem_nil
  | cons stage stages ih =>
    rcases List.mem_cons.mp h with rfl | h
    · rfl
    · exact ih h

/-- The events of a lifecycle are those of the version. -/
theorem modelVersionId_lifecycle {d : Table.Draft ModelVersionEvent.id} {stage : LifecycleStage}
    (h : d ∈ lifecycle ctx versionId stage) (n : Uuid) : (d.1 n).modelVersionId = versionId := by
  rcases List.mem_cons.mp h with rfl | h
  · rfl
  · exact modelVersionId_promotions h n

end

/-! ## What the rows are in the file -/

/-- `spec.get("versions", [])`, as a list. -/
def versionSpecs (spec : Json) : List Json :=
  ((spec.get "versions" (.array [])).bind Json.items).getD []

/-- The versions of models of the file, each with its model. -/
def versionEntries (specs : List Json) : List (Json × Json) :=
  specs.flatMap fun spec => (versionSpecs spec).map fun vspec => (spec, vspec)

/-- The row stores what the file says of a model. -/
structure ModelAs (ctx : SeedContext) (spec : Json) (m : Model) : Prop where
  key : (spec.item "model_id").bind ctx.columnText = some m.key
  name : (spec.item "name").bind ctx.columnText = some m.name
  owner : (spec.item "owner").bind ctx.columnText = some m.owner
  framework : (spec.item "framework").bind ctx.columnText = some m.framework

/-- The row stores what the file says of a version, and belongs to the row of its model. -/
structure VersionAs (ctx : SeedContext) (models : Table Model.id) (entry : Json × Json)
    (v : ModelVersion) : Prop where
  model : ∃ m ∈ models, m.id = v.modelId ∧ ModelAs ctx entry.1 m
  version : (entry.2.item "version").bind ctx.columnText = some v.version
  /-- The stage of the row is the one whose value is in the file. -/
  stage : (entry.2.item "stage").bind Json.text = some v.stage.value
  artifactUri : (entry.2.item "artifact_uri").bind ctx.columnText = some v.artifactUri
  approved : (entry.2.get "approved" .null).map (Json.truthy ctx.isZero) =
    some v.approvedAt.isSome

/-- Models that are added do not matter to a version. -/
theorem VersionAs.mono {ctx : SeedContext} {models models' : Table Model.id} {entry : Json × Json}
    {v : ModelVersion} (h : VersionAs ctx models entry v)
    (hmodels : ∀ m ∈ models, m ∈ models') : VersionAs ctx models' entry v := by
  obtain ⟨m, hm, hmodel⟩ := h.model
  exact ⟨⟨m, hmodels m hm, hmodel⟩, h.version, h.stage, h.artifactUri, h.approved⟩

/-! ## The dictionaries of the registry -/

/-- A key is the value that it was read from. -/
theorem item_of_key {value : Json} {name : String} {k : Json.Key}
    (h : (value.item name).bind Json.key = some k) : value.item name = some k.json := by
  obtain ⟨item, hitem, hkey⟩ := Option.bind_eq_some_iff.mp h
  rw [hitem]
  cases item with
  | array values => exact absurd hkey (by simp [Json.key])
  | object members => exact absurd hkey (by simp [Json.key])
  | _ =>
    obtain rfl := Option.some.inj hkey
    rfl

/-- Where no key has two values, every entry of a dictionary is found under its key. -/
theorem lookup_eq_some_iff_mem {α β : Type} [BEq α] [LawfulBEq α] {entries : List (α × β)}
    (h : ∀ p ∈ entries, ∀ q ∈ entries, p.1 = q.1 → p.2 = q.2) {k : α} {v : β} :
    entries.lookup k = some v ↔ (k, v) ∈ entries := by
  have hmem : ∀ w, entries.lookup k = some w → (k, w) ∈ entries := fun w hw => by
    obtain ⟨before, after, rfl, -⟩ := List.lookup_eq_some_iff.mp hw
    exact List.mem_append_right _ List.mem_cons_self
  refine ⟨hmem v, fun hv => ?_⟩
  obtain ⟨w, hw⟩ := Option.isSome_iff_exists.mp
    (List.lookup_isSome_iff.mpr ⟨_, hv, beq_self_eq_true k⟩)
  exact hw.trans (congrArg some (h _ (hmem w hw) _ hv rfl))

/-- Of two lists that are related item for item, each item of one is related to one of the other. -/
theorem mem_of_forall₂ {α β : Type} {R : α → β → Prop} {l : List α} {l' : List β}
    (h : List.Forall₂ R l l') :
    (∀ b ∈ l', ∃ a ∈ l, R a b) ∧ ∀ a ∈ l, ∃ b ∈ l', R a b := by
  induction h with
  | nil => exact ⟨fun _ h => absurd h List.not_mem_nil, fun _ h => absurd h List.not_mem_nil⟩
  | cons hab _ ih =>
    refine ⟨fun b hb => ?_, fun a ha => ?_⟩
    · rcases List.mem_cons.mp hb with rfl | hb
      · exact ⟨_, List.mem_cons_self, hab⟩
      · obtain ⟨a, ha, hr⟩ := ih.1 b hb
        exact ⟨a, List.mem_cons_of_mem _ ha, hr⟩
    · rcases List.mem_cons.mp ha with rfl | ha
      · exact ⟨_, List.mem_cons_self, hab⟩
      · obtain ⟨b, hb, hr⟩ := ih.2 a ha
        exact ⟨b, List.mem_cons_of_mem _ hb, hr⟩

/-- An entry of `models_by_key`. -/
structure KeyedModel (ctx : SeedContext) (spec : Json) (p : Json.Key × Model) : Prop where
  key : (spec.item "model_id").bind Json.key = some p.1
  row : ModelAs ctx spec p.2

/-- An entry of `versions_by_key`. -/
structure KeyedVersion (ctx : SeedContext) (models : Table Model.id) (entry : Json × Json)
    (p : (Json.Key × Json.Key) × ModelVersion) : Prop where
  modelId : (entry.1.item "model_id").bind Json.key = some p.1.1
  version : (entry.2.item "version").bind Json.key = some p.1.2
  row : VersionAs ctx models entry p.2

/-- The registry that is pending, after a start from `s`, and what the seeder keeps of it, when it
has come so far in the file. -/
structure Mirrors (ctx : SeedContext) (s : SampleStore) (specs : List Json)
    (entries : List (Json × Json)) (registry : Registry) (st : SampleStore) : Prop where
  deployments : st.db.deployments = s.db.deployments
  deploymentEvents : st.db.deploymentEvents = s.db.deploymentEvents
  metrics : st.metrics = s.metrics
  /-- Without a model nothing was added. -/
  untouched : st.db.models.rows = [] → st = s
  counts : registry.counts = ⟨st.db.models.rows.length, st.db.versions.rows.length, 0, 0⟩
  uniqueKey : st.db.UniqueModelKey
  uniqueVersion : st.db.UniqueModelVersion
  models : List.Forall₂ (KeyedModel ctx) specs registry.modelsByKey.reverse
  modelRows : registry.modelsByKey.reverse.map Prod.snd = st.db.models.rows
  versions : List.Forall₂ (KeyedVersion ctx st.db.models) entries registry.versionsByKey.reverse
  versionRows : registry.versionsByKey.reverse.map Prod.snd = st.db.versions.rows
  /-- The model of a version is one of the models. -/
  listed : ∀ entry ∈ entries, entry.1 ∈ specs
  chronicles : ∀ v ∈ st.db.versions, Chronicles (st.db.trail v.id) v.stage
  eventOf : ∀ e ∈ st.db.versionEvents, e.modelVersionId < st.db.versions.next

variable {ctx : SeedContext} {postgresql : Bool} {s st : SampleStore} {registry : Registry}
variable {specs : List Json} {entries : List (Json × Json)}

/-- The empty registry. -/
theorem mirrors_blank (hs : s.Blank) : Mirrors ctx s [] [] ⟨[], [], .zero⟩ s := by
  refine ⟨rfl, rfl, rfl, fun _ => rfl, ?_, ?_, ?_, .nil, hs.models.symm, .nil, hs.versions.symm,
    fun entry h => absurd h List.not_mem_nil, fun v hv => ?_, fun e he => ?_⟩
  · rw [hs.models, hs.versions]
    rfl
  · rw [Db.UniqueModelKey, hs.models]
    exact .nil
  · rw [Db.UniqueModelVersion, hs.versions]
    exact .nil
  · rw [← Table.mem_rows, hs.versions] at hv
    exact absurd hv List.not_mem_nil
  · rw [← Table.mem_rows, hs.versionEvents] at he
    exact absurd he List.not_mem_nil

/-- Two models do not have the same key. -/
theorem Mirrors.eq_of_key (h : Mirrors ctx s specs entries registry st) {m m' : Model}
    (hm : m ∈ st.db.models) (hm' : m' ∈ st.db.models) (hkey : m.key = m'.key) : m = m' :=
  List.inj_on_of_nodup_map (f := Model.key) (List.pairwise_map.mpr h.uniqueKey) hm hm' hkey

/-- Two versions of a model do not have the same version string. -/
theorem Mirrors.eq_of_version (h : Mirrors ctx s specs entries registry st) {v w : ModelVersion}
    (hv : v ∈ st.db.versions) (hw : w ∈ st.db.versions) (hmodel : v.modelId = w.modelId)
    (htext : v.version = w.version) : v = w := by
  have hnodup : (st.db.versions.rows.map fun v => (v.modelId, v.version)).Nodup :=
    List.pairwise_map.mpr (h.uniqueVersion.imp fun hne heq => hne (Prod.mk.inj heq))
  exact List.inj_on_of_nodup_map hnodup hv hw (Prod.ext hmodel htext)

/-- An entry of the dictionary is stored, and is that of a model of the file. -/
theorem Mirrors.of_mem_modelsByKey (h : Mirrors ctx s specs entries registry st)
    {p : Json.Key × Model} (hp : p ∈ registry.modelsByKey) :
    p.2 ∈ st.db.models ∧ ∃ spec ∈ specs, KeyedModel ctx spec p := by
  have hmem : p ∈ registry.modelsByKey.reverse := List.mem_reverse.mpr hp
  refine ⟨?_, (mem_of_forall₂ h.models).1 p hmem⟩
  rw [← Table.mem_rows, ← h.modelRows]
  exact List.mem_map_of_mem hmem

/-- An entry of the dictionary is stored, and is that of a version of the file. -/
theorem Mirrors.of_mem_versionsByKey (h : Mirrors ctx s specs entries registry st)
    {p : (Json.Key × Json.Key) × ModelVersion} (hp : p ∈ registry.versionsByKey) :
    p.2 ∈ st.db.versions ∧ ∃ entry ∈ entries, KeyedVersion ctx st.db.models entry p := by
  have hmem : p ∈ registry.versionsByKey.reverse := List.mem_reverse.mpr hp
  refine ⟨?_, (mem_of_forall₂ h.versions).1 p hmem⟩
  rw [← Table.mem_rows, ← h.versionRows]
  exact List.mem_map_of_mem hmem

/-- The key of a model determines it. -/
theorem Mirrors.model_unique (h : Mirrors ctx s specs entries registry st) {spec spec' : Json}
    {m m' : Model} (hm : m ∈ st.db.models) (hm' : m' ∈ st.db.models) (has : ModelAs ctx spec m)
    (has' : ModelAs ctx spec' m') (hitem : spec.item "model_id" = spec'.item "model_id") :
    m = m' := by
  refine h.eq_of_key hm hm' (Option.some.inj ?_)
  rw [← has.key, ← has'.key, hitem]

/-- The keys of a version determine it. -/
theorem Mirrors.version_unique (h : Mirrors ctx s specs entries registry st)
    {entry entry' : Json × Json} {v w : ModelVersion} (hv : v ∈ st.db.versions)
    (hw : w ∈ st.db.versions) (has : VersionAs ctx st.db.models entry v)
    (has' : VersionAs ctx st.db.models entry' w)
    (hmodel : entry.1.item "model_id" = entry'.1.item "model_id")
    (hitem : entry.2.item "version" = entry'.2.item "version") : v = w := by
  obtain ⟨m, hm, hid, hmas⟩ := has.model
  obtain ⟨m', hm', hid', hmas'⟩ := has'.model
  obtain rfl := h.model_unique hm hm' hmas hmas' hmodel
  refine h.eq_of_version hv hw (hid.symm.trans hid') (Option.some.inj ?_)
  rw [← has.version, ← has'.version, hitem]

/-- A model is found under the key that the file has for it. -/
theorem Mirrors.model?_iff (h : Mirrors ctx s specs entries registry st) {k : Json.Key}
    {m : Model} : registry.model? k = some m ↔
      m ∈ st.db.models ∧ ∃ spec ∈ specs, spec.item "model_id" = some k.json ∧
        ModelAs ctx spec m := by
  rw [Registry.model?, lookup_eq_some_iff_mem]
  · constructor
    · intro hmem
      obtain ⟨hm, spec, hspec, hkeyed⟩ := h.of_mem_modelsByKey hmem
      exact ⟨hm, spec, hspec, item_of_key hkeyed.key, hkeyed.row⟩
    · rintro ⟨hm, spec, hspec, hitem, has⟩
      obtain ⟨⟨k', m'⟩, hp, hkeyed⟩ := (mem_of_forall₂ h.models).2 spec hspec
      have hmem := List.mem_reverse.mp hp
      obtain rfl := h.model_unique (h.of_mem_modelsByKey hmem).1 hm hkeyed.row has rfl
      have hkey := hkeyed.key
      rw [hitem, Option.bind_some, Json.Key.key_json] at hkey
      rw [Option.some.inj hkey]
      exact hmem
  · intro p hp q hq hkey
    obtain ⟨hm, spec, -, hkeyed⟩ := h.of_mem_modelsByKey hp
    obtain ⟨hm', spec', -, hkeyed'⟩ := h.of_mem_modelsByKey hq
    refine h.model_unique hm hm' hkeyed.row hkeyed'.row ?_
    rw [item_of_key hkeyed.key, item_of_key hkeyed'.key, hkey]

/-- A version is found under the keys that the file has for its model and for it. -/
theorem Mirrors.version?_iff (h : Mirrors ctx s specs entries registry st) {k k' : Json.Key}
    {v : ModelVersion} : registry.version? k k' = some v ↔
      v ∈ st.db.versions ∧ ∃ entry ∈ entries, entry.1.item "model_id" = some k.json ∧
        entry.2.item "version" = some k'.json ∧ VersionAs ctx st.db.models entry v := by
  rw [Registry.version?, lookup_eq_some_iff_mem]
  · constructor
    · intro hmem
      obtain ⟨hv, entry, hentry, hkeyed⟩ := h.of_mem_versionsByKey hmem
      exact ⟨hv, entry, hentry, item_of_key hkeyed.modelId, item_of_key hkeyed.version, hkeyed.row⟩
    · rintro ⟨hv, entry, hentry, hmodel, hitem, has⟩
      obtain ⟨⟨⟨i, i'⟩, w⟩, hp, hkeyed⟩ := (mem_of_forall₂ h.versions).2 entry hentry
      have hmem := List.mem_reverse.mp hp
      obtain rfl := h.version_unique (h.of_mem_versionsByKey hmem).1 hv hkeyed.row has rfl rfl
      have hkey := hkeyed.modelId
      have hkey' := hkeyed.version
      rw [hmodel, Option.bind_some, Json.Key.key_json] at hkey
      rw [hitem, Option.bind_some, Json.Key.key_json] at hkey'
      rw [Option.some.inj hkey, Option.some.inj hkey']
      exact hmem
  · intro p hp q hq hkey
    obtain ⟨hv, entry, -, hkeyed⟩ := h.of_mem_versionsByKey hp
    obtain ⟨hw, entry', -, hkeyed'⟩ := h.of_mem_versionsByKey hq
    refine h.version_unique hv hw hkeyed.row hkeyed'.row ?_ ?_
    · rw [item_of_key hkeyed.modelId, item_of_key hkeyed'.modelId, hkey]
    · rw [item_of_key hkeyed.version, item_of_key hkeyed'.version, hkey]

/-- The model of a version that is found is found under the first of the keys. -/
theorem Mirrors.model_of_version (h : Mirrors ctx s specs entries registry st) {k k' : Json.Key}
    {v : ModelVersion} (hv : registry.version? k k' = some v) :
    ∃ m, registry.model? k = some m ∧ m.id = v.modelId := by
  obtain ⟨-, entry, hentry, hmodel, -, has⟩ := h.version?_iff.mp hv
  obtain ⟨m, hm, hid, hmas⟩ := has.model
  exact ⟨m, h.model?_iff.mpr ⟨hm, entry.1, h.listed entry hentry, hmodel, hmas⟩, hid⟩

/-- The models are those of the file. -/
theorem Mirrors.forall₂_models (h : Mirrors ctx s specs entries registry st) :
    List.Forall₂ (ModelAs ctx) specs st.db.models.rows := by
  rw [← h.modelRows, List.forall₂_map_right_iff]
  exact h.models.imp fun _ _ hkeyed => hkeyed.row

/-- The versions are those of the file. -/
theorem Mirrors.forall₂_versions (h : Mirrors ctx s specs entries registry st) :
    List.Forall₂ (VersionAs ctx st.db.models) entries st.db.versions.rows := by
  rw [← h.versionRows, List.forall₂_map_right_iff]
  exact h.versions.imp fun _ _ hkeyed => hkeyed.row

/-- A version of the file has a row. -/
theorem Mirrors.exists_row (h : Mirrors ctx s specs entries registry st) {entry : Json × Json}
    (hentry : entry ∈ entries) :
    ∃ v ∈ st.db.versions, VersionAs ctx st.db.models entry v := by
  obtain ⟨v, hv, has⟩ := (mem_of_forall₂ h.forall₂_versions).2 entry hentry
  exact ⟨v, hv, has⟩

/-- A model that the database accepts has a new key. -/
theorem key_ne_of_accepted {draft : Table.Draft Model.id}
    (haccepted : (st.insert (.model draft)).accepted postgresql = true) {m : Model}
    (hm : m ∈ st.db.models) : m.key ≠ (draft.1 st.db.models.next).key := by
  have hcons := of_decide_eq_true (Bool.and_eq_true_iff.mp haccepted).1
  exact (List.pairwise_append.mp hcons.1).2.2 m hm _ (List.mem_singleton_self _)

/-- A model that the database accepts. -/
theorem Mirrors.insertModel (h : Mirrors ctx s specs entries registry st)
    {draft : Table.Draft Model.id} {spec : Json} {k : Json.Key}
    (hkey : (spec.item "model_id").bind Json.key = some k)
    (hrow : ∀ id, ModelAs ctx spec (draft.1 id))
    (haccepted : (st.insert (.model draft)).accepted postgresql = true) :
    Mirrors ctx s (specs ++ [spec]) entries
      { registry with
        modelsByKey := (k, draft.1 st.db.models.next) :: registry.modelsByKey
        counts := { registry.counts with models := registry.counts.models + 1 } }
      (st.insert (.model draft)) := by
  have hcons := of_decide_eq_true (Bool.and_eq_true_iff.mp haccepted).1
  refine ⟨h.deployments, h.deploymentEvents, h.metrics, ?_, ?_, hcons.1, hcons.2.1, ?_, ?_, ?_,
    h.versionRows, ?_, h.chronicles, h.eventOf⟩
  · intro hempty
    simp [SampleStore.insert, Table.insert] at hempty
  · simp [h.counts, SampleStore.insert, Table.insert]
  · rw [List.reverse_cons]
    exact List.rel_append h.models (.cons ⟨hkey, hrow _⟩ .nil)
  · rw [List.reverse_cons, List.map_append, h.modelRows]
    rfl
  · refine h.versions.imp fun entry p hkeyed => ⟨hkeyed.modelId, hkeyed.version, ?_⟩
    exact hkeyed.row.mono fun m hm => Table.mem_insert.mpr (Or.inl hm)
  · exact fun entry hentry => List.mem_append_left _ (h.listed entry hentry)

/-- The events of a new version. -/
theorem foldl_versionEvent (ds : List (Table.Draft ModelVersionEvent.id)) (st : SampleStore) :
    (ds.map SampleRow.versionEvent).foldl SampleStore.insert st =
      { st with db := { st.db with versionEvents := st.db.versionEvents.insertAll ds } } := by
  induction ds generalizing st with
  | nil => rfl
  | cons d ds ih =>
    rw [List.map_cons, List.foldl_cons, ih]
    rfl

/-- The events of a new version are not about an old one. -/
theorem trail_of_old {v : ModelVersion} (hv : v ∈ st.db.versions) {stage : LifecycleStage} :
    ((st.db.versionEvents.insertAll (lifecycle ctx st.db.versions.next stage)).select fun e =>
      e.modelVersionId = v.id) = st.db.trail v.id := by
  refine Table.select_insertAll fun d hd n => ?_
  rw [modelVersionId_lifecycle hd]
  exact decide_eq_false (Table.key_lt_next hv).ne'

/-- A version that the database accepts, and its trail. -/
theorem Mirrors.insertVersion (h : Mirrors ctx s specs entries registry st)
    {draft : Table.Draft ModelVersion.id} {entry : Json × Json} {k k' : Json.Key}
    {stage : LifecycleStage} (hlisted : entry.1 ∈ specs)
    (hkey : (entry.1.item "model_id").bind Json.key = some k)
    (hkey' : (entry.2.item "version").bind Json.key = some k')
    (hrow : ∀ id, VersionAs ctx st.db.models entry (draft.1 id))
    (hstage : ∀ id, (draft.1 id).stage = stage)
    (haccepted : (st.insert (.version draft)).accepted postgresql = true) :
    Mirrors ctx s specs (entries ++ [entry])
      { registry with
        versionsByKey := ((k, k'), draft.1 st.db.versions.next) :: registry.versionsByKey
        counts := { registry.counts with versions := registry.counts.versions + 1 } }
      (((lifecycle ctx st.db.versions.next stage).map SampleRow.versionEvent).foldl
        SampleStore.insert (st.insert (.version draft))) := by
  have hcons := of_decide_eq_true (Bool.and_eq_true_iff.mp haccepted).1
  have hmem : ∀ v, v ∈ st.db.versions.insert draft ↔
      v ∈ st.db.versions ∨ v = draft.1 st.db.versions.next := fun v => Table.mem_insert
  rw [foldl_versionEvent]
  refine ⟨h.deployments, h.deploymentEvents, h.metrics, ?_, ?_, hcons.1, hcons.2.1, h.models,
    h.modelRows, ?_, ?_, ?_, ?_, ?_⟩
  · intro hempty
    obtain ⟨m, hm, -⟩ := (hrow st.db.versions.next).model
    have hrows : st.db.models.rows = [] := hempty
    rw [← Table.mem_rows, hrows] at hm
    exact absurd hm List.not_mem_nil
  · simp [h.counts, SampleStore.insert, Table.insert]
  · rw [List.reverse_cons]
    exact List.rel_append h.versions (.cons ⟨hkey, hkey', hrow _⟩ .nil)
  · rw [List.reverse_cons, List.map_append, h.versionRows]
    rfl
  · intro entry' hentry'
    rcases List.mem_append.mp hentry' with hentry' | hentry'
    · exact h.listed entry' hentry'
    · rw [List.mem_singleton.mp hentry']
      exact hlisted
  · intro v hv
    rcases (hmem v).mp hv with hv | rfl
    · have hold := h.chronicles v hv
      rw [← trail_of_old hv] at hold
      exact hold
    · rw [hstage, draft.2]
      refine chronicles_lifecycle stage (List.filter_eq_nil_iff.mpr fun e he => ?_)
      exact fun hsame => absurd (of_decide_eq_true hsame) (h.eventOf e he).ne
  · intro e he
    show e.modelVersionId < st.db.versions.next + 1
    rcases Table.mem_insertAll he with he | ⟨d, hd, n, -, rfl⟩
    · exact Nat.lt_succ_of_lt (h.eventOf e he)
    · rw [modelVersionId_lifecycle hd]
      exact Nat.lt_succ_self _

/-! ## The loops over the models and their versions -/

/-- A value that was read is gone on with. -/
theorem loads_read {α β : Type} {b : Backend SampleStore SampleRow SeedError} {o : Option α}
    {f : α → Seeding β} {Ret : β → SampleStore → Prop} {Exc : Prop}
    (hnext : ∀ a, o = some a → Loads b st (f a) Ret Exc) (hexc : o = none → Exc) :
    Loads b st (read o >>= f) Ret Exc := by
  cases o with
  | none => exact .bind (fun _ _ => False) (.raise (hexc rfl)) fun _ _ h => h.elim
  | some a =>
    refine .bind (fun x st' => x = a ∧ st' = st) (.pure ⟨rfl, rfl⟩) ?_
    rintro _ _ ⟨rfl, rfl⟩
    exact hnext _ rfl

/-- A text that a stage is read from is its value. -/
theorem stage_of_value {value : Option String} {stage : LifecycleStage}
    (h : value.bind LifecycleStage.ofValue = some stage) : value = some stage.value := by
  obtain ⟨text, rfl, hfind⟩ := Option.bind_eq_some_iff.mp h
  unfold LifecycleStage.ofValue at hfind
  have hfound := List.find?_some hfind
  rw [of_decide_eq_true hfound]

/-- A version is added to the registry with its trail. -/
theorem loads_seedVersion (h : Mirrors ctx s specs entries registry st) {spec vspec : Json}
    {k : Json.Key} {model : Model} (hlisted : spec ∈ specs)
    (hkey : (spec.item "model_id").bind Json.key = some k) (hmodel : model ∈ st.db.models)
    (has : ModelAs ctx spec model) :
    Loads (seedBackend postgresql) st (seedVersion ctx k model registry vspec)
      (fun registry' st' => Mirrors ctx s specs (entries ++ [(spec, vspec)]) registry' st' ∧
        model ∈ st'.db.models) True := by
  refine loads_read (fun stage hstage => ?_) fun _ => trivial
  refine loads_read (fun approved happroved => ?_) fun _ => trivial
  refine loads_read (fun text htext => ?_) fun _ => trivial
  refine loads_read (fun artifactUri hartifactUri => ?_) fun _ => trivial
  refine .addFlush (fun haccepted => ?_) fun _ => trivial
  have hid : ∀ draft, ((seedBackend postgresql).write st (.version draft)).db.versions.lastKey =
      st.db.versions.next := fun draft => Table.lastKey_insert
  rw [hid]
  refine loads_read (fun k' hkey' => ?_) fun _ => trivial
  refine .addAll (.pure ⟨h.insertVersion hlisted hkey hkey' (fun id => ?_) (fun _ => rfl)
    haccepted, ?_⟩)
  · refine ⟨⟨model, hmodel, rfl, has⟩, htext, stage_of_value hstage, hartifactUri, ?_⟩
    rw [happroved]
    show some _ = some (Option.isSome (if _ then _ else _))
    cases approved.truthy ctx.isZero <;> rfl
  · show model ∈ (List.foldl SampleStore.insert _ (List.map _ _)).db.models
    rw [foldl_versionEvent]
    exact hmodel

/-- A model is added to the registry, and then its versions. -/
theorem loads_seedModel (h : Mirrors ctx s specs entries registry st) (spec : Json) :
    Loads (seedBackend postgresql) st (seedModel ctx registry spec)
      (fun registry' st' => Mirrors ctx s (specs ++ [spec])
          (entries ++ (versionSpecs spec).map fun vspec => (spec, vspec)) registry' st' ∧
        st'.db.models.rows ≠ []) True := by
  refine loads_read (fun key hkey => ?_) fun _ => trivial
  refine loads_read (fun name hname => ?_) fun _ => trivial
  refine loads_read (fun owner howner => ?_) fun _ => trivial
  refine loads_read (fun framework hframework => ?_) fun _ => trivial
  refine .addFlush (fun haccepted => ?_) fun _ => trivial
  have hid : ∀ draft, ((seedBackend postgresql).write st (.model draft)).db.models.lastKey =
      st.db.models.next := fun draft => Table.lastKey_insert
  rw [hid]
  refine loads_read (fun k hk => ?_) fun _ => trivial
  refine loads_read (fun vspecs hvspecs => ?_) fun _ => trivial
  have has : ∀ id, ModelAs ctx spec (modelRow ctx key name owner framework id) := fun id =>
    ⟨hkey, hname, howner, hframework⟩
  have hmodel : modelRow ctx key name owner framework st.db.models.next ∈
      st.db.models.insert ⟨_, modelRow_id ctx key name owner framework⟩ :=
    Table.mem_insert.mpr (Or.inr rfl)
  have hspecs : versionSpecs spec = vspecs := by rw [versionSpecs, hvspecs, Option.getD_some]
  rw [hspecs]
  refine .weaken (.foldlM_before (fun before registry' st' => Mirrors ctx s (specs ++ [spec])
      (entries ++ before.map fun vspec => (spec, vspec)) registry' st' ∧
        modelRow ctx key name owner framework st.db.models.next ∈ st'.db.models) ?_ ?_) ?_ id
  · rw [List.map_nil, List.append_nil]
    exact ⟨h.insertModel hk has haccepted, hmodel⟩
  · rintro before vspec rest registry' st' - ⟨hm, hmem⟩
    rw [List.map_append, ← List.append_assoc]
    exact loads_seedVersion hm (List.mem_append_right _ (List.mem_singleton_self _)) hk hmem
      (has _)
  · exact fun _ _ hret => ⟨hret.1, List.ne_nil_of_mem hret.2⟩

/-- The registry of the sample: the rows and the dictionaries are those of the file, and there is a
model unless the file has none. -/
theorem loads_seedModels (hs : s.Blank) (files : SampleFiles) :
    Loads (seedBackend postgresql) s (seedModels ctx files)
      (fun registry st' => Mirrors ctx s files.specs (versionEntries files.specs) registry st' ∧
        (st'.db.models.rows = [] → files.models.bind Json.items = some [])) True := by
  refine loads_read (fun specs hspecs => ?_) fun _ => trivial
  have hfile : files.specs = specs := by rw [SampleFiles.specs, hspecs, Option.getD_some]
  rw [hfile, hspecs]
  refine .weaken (.foldlM_before (fun before registry st' =>
    Mirrors ctx s before (versionEntries before) registry st' ∧
      (st'.db.models.rows = [] → before = [])) ⟨mirrors_blank hs, fun _ => rfl⟩ ?_)
    (fun _ _ hret => ⟨hret.1, fun hempty => congrArg some (hret.2 hempty)⟩) id
  rintro before spec rest registry st' - ⟨hm, -⟩
  refine (loads_seedModel hm spec).weaken (fun _ _ hret => ⟨?_, fun hempty => absurd hempty hret.2⟩)
    id
  rw [versionEntries, List.flatMap_append, List.flatMap_singleton]
  exact hret.1

end Seeding

end MlopsPlatform
