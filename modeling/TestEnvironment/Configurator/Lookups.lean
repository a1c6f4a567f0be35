import TestEnvironment.Configurator.Trees

/-!
What the lookups by OID find: in well-formed trees each loop ends, and the
entity it ends at has the OID that was looked for, component by component.
-/
namespace TestEnvironment.Configurator
open Lib

variable {id : CfgSubid} {ids : List CfgSubid} {a f : Nat} {α : Type}

section
variable {db : Db} {kids : Nat → List Nat}

theorem testAt_some {h : Heap α} {p : α → Bool} (hit : testAt h p a = true) : ∃ x, h.get a = some x ∧ p x = true := by
  simpa [testAt,Option.any_eq_true] using hit

/-- The sons of the object `f` that an element names. -/
theorem ObjTree.find_son (tree : ObjTree db kids) (found : (kids f).find? (testAt db.objs (objIs id)) = some a) :
    a ∈ kids f ∧ ∃ o, db.objs.get a = some o ∧ o.father = some f ∧ o.subid = id.subid := by
  have member := mem_of_find?_eq_some found
  obtain ⟨o,there,hit⟩ := testAt_some (find?_some found)
  obtain ⟨k,live,father⟩ := tree.forest.kid member
  obtain ⟨o',there',rfl⟩ := objLinks_some live
  have same : o' = o := some.inj (there'.symm.trans there)
  subst same
  exact ⟨member,o',there,father,by simpa [objIs] using hit⟩

theorem descendObj_sons (tree : ObjTree db kids) (some' : ids ≠ []) {p : CfgObject} (found : db.objs.get f = some p) :
    ∃ r, descendObj db ids p.son = some r ∧ ∀ a, r = some a → ∃ o, db.objs.get a = some o ∧
      (components o.oid).map CfgSubid.subid = (components p.oid ++ ids).map CfgSubid.subid := by
  induction ids generalizing f p with
  | nil => exact absurd rfl some'
  | cons id ids ih =>
    have scanned := tree.scan found (objIs id)
    have step : ∀ {a}, (kids f).find? (testAt db.objs (objIs id)) = some a → ∃ o, db.objs.get a = some o ∧
        (components o.oid).map CfgSubid.subid = (components p.oid).map CfgSubid.subid ++ [id.subid] := by
      intro a here
      obtain ⟨_,o,there,father,subid⟩ := tree.find_son here
      exact ⟨o,there,by rw [tree.path there father found]; simp [subid]⟩
    cases ids with
    | nil =>
      refine ⟨_,scanned,fun a here => ?_⟩
      obtain ⟨o,there,comps⟩ := step here
      exact ⟨o,there,by simpa using comps⟩
    | cons id' ids =>
      unfold descendObj descend
      rw [scanned]
      cases here : (kids f).find? (testAt db.objs (objIs id)) with
      | none => exact ⟨none,by simp,by simp⟩
      | some a =>
        obtain ⟨o,there,comps⟩ := step here
        obtain ⟨r,down,spec⟩ := ih (by simp) there
        refine ⟨r,by simpa [there,descendObj] using down,fun b last => ?_⟩
        obtain ⟨q,thereQ,compsQ⟩ := spec b last
        exact ⟨q,thereQ,by simp [compsQ,comps]⟩

/-- The loop over an object OID ends, and at the object with this OID. -/
theorem descendObj_root (tree : ObjTree db kids) (ids : List CfgSubid) :
    ∃ r, descendObj db (rootId :: ids) (some cfg_obj_root) = some r ∧ ∀ a, r = some a → ∃ o, db.objs.get a = some o ∧
      (components o.oid).map CfgSubid.subid = ids.map CfgSubid.subid := by
  obtain ⟨o,found,subid,top,_⟩ := tree.root
  obtain ⟨k,live,_,alone⟩ := tree.forest.top
  have same : o.toLinks = k := some.inj ((objLinks_eq found).symm.trans live)
  have chain : Chain (linkOf db.objs fun x => x.brother) (some cfg_obj_root) [cfg_obj_root] := by
    refine .cons (p := none) ?_ .nil
    simp [linkOf,found,show o.brother = none from (congrArg Links.brother same).trans alone]
  have hit : testAt db.objs (objIs rootId) cfg_obj_root = true := by simp [testAt,found,objIs,subid,rootId]
  have scanned := scan_find (p := objIs rootId) chain
  simp only [List.find?_cons,hit] at scanned
  cases ids with
  | nil =>
    refine ⟨_,scanned,?_⟩
    rintro a ⟨⟩
    exact ⟨o,found,by simp [top]⟩
  | cons id ids =>
    obtain ⟨r,down,spec⟩ := descendObj_sons tree (show id :: ids ≠ [] by simp) found
    refine ⟨r,?_,fun a last => by simpa [top] using spec a last⟩
    unfold descendObj descend
    rw [scanned]
    simpa [found,descendObj] using down
end

section
variable {db : Db} {okids kids : Nat → List Nat}

variable {p : CfgInstance}

/-- The sons of the instance `f` that an element names. -/
theorem InstTree.find_son (tree : InstTree db kids)
    (father : db.insts.get f = some p) (found : (kids f).find? (testAt db.insts (instIs db id)) = some a) :
    a ∈ kids f ∧ ∃ x, db.insts.get a = some x ∧ x.remove = false ∧ components x.oid = components p.oid ++ [id] := by
  have member := mem_of_find?_eq_some found
  obtain ⟨x,there,hit⟩ := testAt_some (find?_some found)
  obtain ⟨k,live,up⟩ := tree.forest.kid member
  obtain ⟨x',there',rfl⟩ := instLinks_some live
  have same : x' = x := some.inj (there'.symm.trans there)
  subst same
  obtain ⟨o,object,_,comps⟩ := tree.path there up father
  simp only [instIs,object,Option.any_some,objIs,and_eq_true,decide_eq_true_eq,Bool.not_eq_true'] at hit
  refine ⟨member,x',there,hit.2,?_⟩
  rw [comps,hit.1.1,hit.1.2]

theorem descendInst_sons (tree : InstTree db kids) (some' : ids ≠ []) (found : db.insts.get f = some p) :
    ∃ r, descendInst db ids p.son = some r ∧ ∀ a, r = some a → ∃ x, db.insts.get a = some x ∧
      x.remove = false ∧ components x.oid = components p.oid ++ ids := by
  induction ids generalizing f p with
  | nil => exact absurd rfl some'
  | cons id ids ih =>
    have scanned := tree.scan found (instIs db id)
    cases ids with
    | nil =>
      refine ⟨_,scanned,fun a here => ?_⟩
      obtain ⟨_,x,there,stays,comps⟩ := tree.find_son found here
      exact ⟨x,there,stays,comps⟩
    | cons id' ids =>
      unfold descendInst descend
      rw [scanned]
      cases here : (kids f).find? (testAt db.insts (instIs db id)) with
      | none => exact ⟨none,by simp,by simp⟩
      | some a =>
        obtain ⟨_,x,there,_,comps⟩ := tree.find_son found here
        obtain ⟨r,down,spec⟩ := ih (by simp) there
        refine ⟨r,by simpa [there,descendInst] using down,fun b last => ?_⟩
        obtain ⟨y,thereY,stays,compsY⟩ := spec b last
        exact ⟨y,thereY,stays,by simp [compsY,comps]⟩

theorem scan_root (objTree : ObjTree db okids) (tree : InstTree db kids) :
    scan db.insts (fun x => x.brother) (instIs db rootId) db.insts.size (some cfg_inst_root) =
      some (some cfg_inst_root) := by
  obtain ⟨o,object,subid,_,_⟩ := objTree.root
  obtain ⟨i,found,_,name,obj,_,stays⟩ := tree.root
  obtain ⟨k,live,_,alone⟩ := tree.forest.top
  have same : i.toLinks = k := some.inj ((instLinks_eq found).symm.trans live)
  have chain : Chain (linkOf db.insts fun x => x.brother) (some cfg_inst_root) [cfg_inst_root] := by
    refine .cons (p := none) ?_ .nil
    simp [linkOf,found,show i.brother = none from (congrArg Links.brother same).trans alone]
  have hit : testAt db.insts (instIs db rootId) cfg_inst_root = true := by
    simp [testAt,found,instIs,obj,object,objIs,subid,rootId,name,stays]
  rw [scan_find chain]
  simp [hit]
/-- The loop over an instance OID ends, and at the instance with this OID. -/
theorem descendInst_root (objTree : ObjTree db okids) (tree : InstTree db kids) (ids : List CfgSubid) :
    ∃ r, descendInst db (rootId :: ids) (some cfg_inst_root) = some r ∧ ∀ a, r = some a →
      ∃ x, db.insts.get a = some x ∧ x.remove = false ∧ components x.oid = ids := by
  obtain ⟨i,found,oid,_,_,_,stays⟩ := tree.root
  have top : components i.oid = [] := by rw [oid]; rfl
  have scanned := scan_root objTree tree
  cases ids with
  | nil =>
    refine ⟨_,scanned,?_⟩
    rintro a ⟨⟩
    exact ⟨i,found,stays,top⟩
  | cons id ids =>
    obtain ⟨r,down,spec⟩ := descendInst_sons tree (show id :: ids ≠ [] by simp) found
    refine ⟨r,?_,fun a last => by simpa [top] using spec a last⟩
    unfold descendInst descend
    rw [scanned]
    simpa [found,descendInst] using down
theorem lookForFather_descends {h : Heap α} {links : α → Links} {is : CfgSubid → α → Bool}
    {root : Nat} (found : lookForFather h links is (rootId :: ids) root = some (some f)) :
    ids ≠ [] ∧ descend h links is (rootId :: ids.dropLast) (some root) = some (some f) := by
  unfold lookForFather at found
  cases ids with
  | nil =>
    rw [if_pos (by simp)] at found
    obtain ⟨r,_,found⟩ := of_bind found
    split at found <;> simp at found
  | cons id ids =>
    rw [if_neg (by simp)] at found
    exact ⟨by simp,found⟩
/-- The father that `cfg_db_add` looks for has the OID without its last component. -/
theorem lookForFather_inst (objTree : ObjTree db okids) (tree : InstTree db kids)
    (found : lookForFather db.insts CfgInstance.toLinks (instIs db) (rootId :: ids) cfg_inst_root = some (some f)) :
    ids ≠ [] ∧ ∃ x, db.insts.get f = some x ∧ x.remove = false ∧ components x.oid = ids.dropLast := by
  obtain ⟨long,reached⟩ := lookForFather_descends found
  obtain ⟨r,down,spec⟩ := descendInst_root objTree tree ids.dropLast
  exact ⟨long,spec f (some.inj (down.symm.trans reached))⟩
theorem lookForFather_obj (tree : ObjTree db kids)
    (found : lookForFather db.objs CfgObject.toLinks objIs (rootId :: ids) cfg_obj_root = some (some f)) :
    ids ≠ [] ∧ ∃ o, db.objs.get f = some o ∧
      (components o.oid).map CfgSubid.subid = ids.dropLast.map CfgSubid.subid := by
  obtain ⟨long,reached⟩ := lookForFather_descends found
  obtain ⟨r,down,spec⟩ := descendObj_root tree ids.dropLast
  exact ⟨long,spec f (some.inj (down.symm.trans reached))⟩
end
end TestEnvironment.Configurator
