import MlopsPlatform.Services.Listing
import MlopsPlatform.System

/-!
# Searches

What the two listings find. A search text goes into its pattern as it is, so a `%`, a `_` or a
backslash in it is taken for a part of the pattern: the search for `A_B` also finds `AxB`. For every
other text the listings find exactly the rows in which it occurs. The joins of `list_deployments`
neither lose a row, because of the foreign keys, nor repeat one, because ids are unique.
-/

namespace MlopsPlatform

open Like (CaseFold Plain)

/-! ## What a search is for -/

/-- A text occurs in a column, whatever the case. -/
abbrev Occurs (f : CaseFold) (q column : String) : Prop := f.Contains q.toList column.toList

/-- The text occurs in the name, the key, the owner or the framework of a model. -/
def Model.Mentions (f : CaseFold) (q : String) (m : Model) : Prop :=
  Occurs f q m.name ∨ Occurs f q m.key ∨ Occurs f q m.owner ∨ Occurs f q m.framework

/-- The text occurs in the key or the name of the model of a deployment, in its version string, its
environment or its status. -/
def Db.Mentions (db : Db) (f : CaseFold) (q : String) (d : Deployment) : Prop :=
  (∃ m ∈ db.models, m.id = d.modelId ∧ (Occurs f q m.key ∨ Occurs f q m.name)) ∨
    (∃ v ∈ db.versions, v.id = d.modelVersionId ∧ Occurs f q v.version) ∨
    Occurs f q d.environment.value ∨ Occurs f q d.status.value

/-- The foreign keys of `deployments` that the joins are on. -/
def Db.ForeignKeys (db : Db) : Prop :=
  ∀ d ∈ db.deployments, (db.models.get? d.modelId).isSome = true ∧
    (db.versions.get? d.modelVersionId).isSome = true

instance (f : CaseFold) (q : String) (m : Model) : Decidable (m.Mentions f q) :=
  inferInstanceAs (Decidable (_ ∨ _ ∨ _ ∨ _))

instance (db : Db) : Decidable db.ForeignKeys :=
  inferInstanceAs (Decidable (∀ d ∈ db.deployments.rows, _))

/-! ## The joins -/

/-- The joins find the model and the version of a deployment. -/
theorem mem_joined {db : Db} {d : Deployment} {m : Model} {v : ModelVersion} :
    (d, m, v) ∈ joined db ↔ d ∈ db.deployments ∧ db.models.get? d.modelId = some m ∧
      db.versions.get? d.modelVersionId = some v := by
  simp only [joined, Table.select_key, List.mem_flatMap, List.mem_map, Option.mem_toList,
    Prod.mk.injEq]
  constructor
  · rintro ⟨e, he, n, hn, w, hw, rfl, rfl, rfl⟩
    exact ⟨he, hn, hw⟩
  · rintro ⟨hd, hm, hv⟩
    exact ⟨d, hd, m, hm, v, hv, rfl, rfl, rfl⟩

/-- The joined rows are in the order of the deployments, and no two are of the same one. -/
theorem joined_sorted (db : Db) : (joined db).Pairwise fun x y => x.1.id < y.1.id := by
  have hfst : ∀ (d : Deployment), ∀ x ∈ (db.models.get? d.modelId).toList.flatMap fun m =>
      (db.versions.get? d.modelVersionId).toList.map fun v => (d, m, v), x.1 = d := by
    intro d x hx
    obtain ⟨m, -, hx⟩ := List.mem_flatMap.mp hx
    obtain ⟨v, -, rfl⟩ := List.mem_map.mp hx
    rfl
  simp only [joined, Table.select_key]
  refine List.pairwise_flatMap.mpr ⟨fun d hd => ?_, db.deployments.sorted.imp ?_⟩
  · cases db.models.get? d.modelId with
    | none => exact List.Pairwise.nil
    | some m =>
      cases db.versions.get? d.modelVersionId with
      | none => exact List.Pairwise.nil
      | some v => exact List.pairwise_singleton _ _
  · intro d e hlt x hx y hy
    rw [hfst d x hx, hfst e y hy]
    exact hlt

/-! ## Plain searches -/

variable {f : CaseFold} {q : String}

/-- A column matches the pattern of a plain search exactly if the text occurs in it. -/
theorem ilike_iff (h : Plain q.toList) (column : String) :
    ilike f column ("%" ++ q ++ "%") = true ↔ Occurs f q column := by
  rw [ilike_pattern]
  exact CaseFold.ilike_around h column.toList

/-- The models that a plain search is for. -/
theorem modelCond_iff (h : Plain q.toList) (m : Model) :
    modelCond f ("%" ++ q ++ "%") m = true ↔ m.Mentions f q := by
  simp only [modelCond, Bool.or_eq_true, ilike_iff h, or_assoc, Model.Mentions]

/-- A plain search lists the models that mention its text. -/
theorem listModels_lists (hq : q ≠ "") (h : Plain q.toList) (db : Db) (limit offset : ℕ) :
    Lists db.models (fun m => m.Mentions f q) limit offset
      (listModels f db limit offset (some q)) := by
  simp only [listModels, searchText_some hq]
  refine lists_page (db.models.sorted.filter _) (fun m => ?_) limit offset
  exact Table.mem_select.trans (and_congr_right fun _ => modelCond_iff h m)

/-- The joined rows that a plain search is for are of the deployments that mention its text. -/
theorem deploymentCond_iff (h : Plain q.toList) {db : Db} {d : Deployment} {m : Model}
    {v : ModelVersion} (hm : db.models.get? d.modelId = some m)
    (hv : db.versions.get? d.modelVersionId = some v) :
    deploymentCond f ("%" ++ q ++ "%") (d, m, v) = true ↔ db.Mentions f q d := by
  obtain ⟨hmem, hmid⟩ := Table.get?_eq_some.mp hm
  obtain ⟨hvem, hvid⟩ := Table.get?_eq_some.mp hv
  simp only [deploymentCond, Bool.or_eq_true, ilike_iff h, or_assoc]
  constructor
  · rintro (hocc | hocc | hocc | hocc)
    · exact Or.inl ⟨m, hmem, hmid, Or.inl hocc⟩
    · exact Or.inl ⟨m, hmem, hmid, Or.inr hocc⟩
    · exact Or.inr (Or.inl ⟨v, hvem, hvid, hocc⟩)
    · exact Or.inr (Or.inr hocc)
  · -- The model and the version are the only ones with their ids.
    rintro (⟨n, hn, hnid, hocc⟩ | ⟨w, hw, hwid, hocc⟩ | hocc)
    · obtain rfl := db.models.eq_of_key_eq hn hmem (hnid.trans hmid.symm)
      exact hocc.imp_right Or.inl
    · obtain rfl := db.versions.eq_of_key_eq hw hvem (hwid.trans hvid.symm)
      exact Or.inr (Or.inr (Or.inl hocc))
    · exact Or.inr (Or.inr (Or.inr hocc))

/-- A plain search lists the deployments that mention its text. -/
theorem listDeployments_lists (hq : q ≠ "") (h : Plain q.toList) {db : Db} (hdb : db.ForeignKeys)
    (limit offset : ℕ) :
    Lists db.deployments (fun d => db.Mentions f q d) limit offset
      (listDeployments f db limit offset (some q)) := by
  simp only [listDeployments, searchText_some hq]
  refine lists_page (List.pairwise_map.mpr ((joined_sorted db).filter _)) (fun d => ?_) limit offset
  simp only [List.mem_map, List.mem_filter]
  constructor
  · rintro ⟨⟨e, m, v⟩, ⟨hjoined, hcond⟩, rfl⟩
    obtain ⟨he, hm, hv⟩ := mem_joined.mp hjoined
    exact ⟨he, (deploymentCond_iff h hm hv).mp hcond⟩
  · rintro ⟨hd, hmentions⟩
    -- The foreign keys lead to a joined row.
    obtain ⟨hmodel, hversion⟩ := hdb d hd
    obtain ⟨m, hm⟩ := Option.isSome_iff_exists.mp hmodel
    obtain ⟨v, hv⟩ := Option.isSome_iff_exists.mp hversion
    have hcond := (deploymentCond_iff (f := f) h hm hv).mpr hmentions
    exact ⟨(d, m, v), ⟨mem_joined.mpr ⟨hd, hm, hv⟩, hcond⟩, rfl⟩

/-! ## Other searches -/

/-- A model whose columns are all one text. -/
def textModel (text : String) (id : Uuid) : Model :=
  { id, key := text, name := text, owner := text, framework := text, tags := []
    createdBy := none }

/-- The model has the id that was drawn. -/
theorem textModel_id (text : String) (id : Uuid) : (textModel text id).id = id := rfl

/-- A version of model 1 whose version string is a text. -/
def textVersion (text : String) (id : Uuid) : ModelVersion :=
  { id, modelId := 1, version := text, stage := .validated, algorithm := none
    artifactUri := text, trainingDataRef := none, tags := [], approvedBy := none
    approvedAt := none, createdBy := none }

/-- The version has the id that was drawn. -/
theorem textVersion_id (text : String) (id : Uuid) : (textVersion text id).id = id := rfl

/-- A deployment of version 1 of model 1. -/
def firstDeployment (id : Uuid) : Deployment :=
  { id, modelId := 1, modelVersionId := 1, environment := .development, status := .requested
    idempotencyKey := none, workerId := none, lockedAt := none, attempts := 0, error := none
    simulateFailure := false, correlationId := none, rolledBackToId := none, createdBy := none }

/-- The deployment has the id that was drawn. -/
theorem firstDeployment_id (id : Uuid) : (firstDeployment id).id = id := rfl

/-- One model, one version of it, and a deployment of this version, with a text in all columns. -/
def textDb (text : String) : Db :=
  { Db.empty with
    models := Table.empty.insert ⟨textModel text, textModel_id text⟩
    versions := Table.empty.insert ⟨textVersion text, textVersion_id text⟩
    deployments := Table.empty.insert ⟨firstDeployment, firstDeployment_id⟩ }

/-- The foreign keys of the deployment name the model and the version. -/
theorem textDb_foreignKeys (text : String) : (textDb text).ForeignKeys := by
  intro d hd
  obtain rfl : d = firstDeployment 1 :=
    (Table.mem_insert.mp hd).resolve_left (Table.not_mem_empty d)
  exact ⟨rfl, rfl⟩

/-- What a search finds whether or not its text occurs in it. -/
def decoyOf (q : String) : String := String.ofList (Like.decoy q.toList)

/-- A search finds its decoy. -/
theorem ilike_decoyOf (f : CaseFold) (q : String) :
    ilike f (decoyOf q) ("%" ++ q ++ "%") = true := by
  rw [ilike_pattern, decoyOf, String.toList_ofList]
  exact f.ilike_decoy q.toList

/-- The text of a search occurs in its decoy only if it is plain. -/
theorem plain_of_occurs (h : Occurs f q (decoyOf q)) : Plain q.toList := by
  rw [Occurs, decoyOf, String.toList_ofList] at h
  exact CaseFold.plain_of_decoy h

/-- A search that is not plain lists a model that does not mention its text. -/
theorem plain_of_listModels (hq : q ≠ "")
    (h : ∀ (db : Db) (limit offset : ℕ), Lists db.models (fun m => m.Mentions f q) limit offset
      (listModels f db limit offset (some q))) : Plain q.toList := by
  have hfound : textModel (decoyOf q) 1 ∈
      (textDb (decoyOf q)).models.select (modelCond f ("%" ++ q ++ "%")) := by
    refine Table.mem_select.mpr ⟨Table.mem_insert.mpr (Or.inr rfl), ?_⟩
    simp [modelCond, textModel, ilike_decoyOf]
  have hlists := h (textDb (decoyOf q))
    ((textDb (decoyOf q)).models.select (modelCond f ("%" ++ q ++ "%"))).length 0
  simp only [listModels, searchText_some hq] at hlists
  rcases hlists.of_mem (mem_page hfound) with hocc | hocc | hocc | hocc
  · exact plain_of_occurs hocc
  · exact plain_of_occurs hocc
  · exact plain_of_occurs hocc
  · exact plain_of_occurs hocc

/-- A search that is not plain lists a deployment that does not mention its text. -/
theorem plain_of_listDeployments (hq : q ≠ "")
    (h : ∀ db : Db, db.ForeignKeys → ∀ limit offset, Lists db.deployments
      (fun d => db.Mentions f q d) limit offset (listDeployments f db limit offset (some q))) :
    Plain q.toList := by
  let rows := ((joined (textDb (decoyOf q))).filter
    (deploymentCond f ("%" ++ q ++ "%"))).map fun x => x.1
  have hfound : firstDeployment 1 ∈ rows := by
    refine List.mem_map.mpr
      ⟨(firstDeployment 1, textModel (decoyOf q) 1, textVersion (decoyOf q) 1), ?_, rfl⟩
    refine List.mem_filter.mpr ⟨mem_joined.mpr ⟨Table.mem_insert.mpr (Or.inr rfl), rfl, rfl⟩, ?_⟩
    simp [deploymentCond, textModel, ilike_decoyOf]
  have hlists := h (textDb (decoyOf q)) (textDb_foreignKeys _) rows.length 0
  simp only [listDeployments, searchText_some hq] at hlists
  rcases hlists.of_mem (mem_page hfound) with ⟨m, hm, -, hocc⟩ | ⟨v, hv, -, hocc⟩ | hocc | hocc
  · obtain rfl := (Table.mem_insert.mp hm).resolve_left (Table.not_mem_empty m)
    exact plain_of_occurs (hocc.elim id id)
  · obtain rfl := (Table.mem_insert.mp hv).resolve_left (Table.not_mem_empty v)
    exact plain_of_occurs hocc
  · -- No wildcard and no escape is in the name of an environment or of a status.
    exact CaseFold.plain_of_contains hocc (by decide)
  · exact CaseFold.plain_of_contains hocc (by decide)

/-- Search is substring search for plain texts, and for no others. For every case folding and every
search that is not empty, each listing returns and counts exactly the rows that mention the text,
whatever the tables hold, if and only if the text has no `%`, no `_` and no backslash. -/
theorem search_iff (f : CaseFold) (hq : q ≠ "") :
    ((∀ (db : Db) (limit offset : ℕ), Lists db.models (fun m => m.Mentions f q) limit offset
        (listModels f db limit offset (some q))) ↔ Plain q.toList) ∧
      ((∀ db : Db, db.ForeignKeys → ∀ limit offset, Lists db.deployments
        (fun d => db.Mentions f q d) limit offset (listDeployments f db limit offset (some q))) ↔
        Plain q.toList) := by
  refine ⟨⟨plain_of_listModels hq, fun h db limit offset => ?_⟩,
    ⟨plain_of_listDeployments hq, fun h db hdb limit offset => ?_⟩⟩
  · exact listModels_lists hq h db limit offset
  · exact listDeployments_lists hq h hdb limit offset

/-- Search is not substring search: the search for `p_m` finds "pump failure". -/
theorem not_search_lists :
    ¬∀ (f : CaseFold) (q : String), q ≠ "" → ∀ db : Db, db.ForeignKeys → ∀ limit offset,
      Lists db.models (fun m => m.Mentions f q) limit offset
          (listModels f db limit offset (some q)) ∧
        Lists db.deployments (fun d => db.Mentions f q d) limit offset
          (listDeployments f db limit offset (some q)) := by
  intro h
  have hlists := (h .ascii "p_m" (by decide) pumpDb (by decide) 20 0).1
  have hall : ∀ m ∈ (listModels .ascii pumpDb 20 0 (some "p_m")).1,
      m.Mentions .ascii "p_m" := fun m hm => hlists.of_mem hm
  revert hall
  decide

/-- The search for `PUMP` in `pumpDb`. -/
theorem search_iff_pump :
    (listModels .ascii pumpDb 20 0 (some "PUMP")).2 = 1 ∧
      Lists pumpDb.models (fun m => m.Mentions .ascii "PUMP") 20 0
        (listModels .ascii pumpDb 20 0 (some "PUMP")) :=
  ⟨by decide, (search_iff .ascii (by decide)).1.mpr (by decide) pumpDb 20 0⟩

end MlopsPlatform
