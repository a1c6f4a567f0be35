import TestEnvironment.Configurator.Lookups

/-!
Additions to the tree of instances. `Ext` says that the instances of a database
are still there in another one, with other family links; `Fresh` what is known
of the OIDs of those that are new. All insertion paths keep the tree.
-/
namespace TestEnvironment.Configurator
open Lib

/-- Instances were only added. -/
structure Ext (db db' : Db) : Prop where
  objs : db'.objs = db.objs
  cfg_all_obj : db'.cfg_all_obj = db.cfg_all_obj
  orphaned_objects : db'.orphaned_objects = db.orphaned_objects
  topological_order : db'.topological_order = db.topological_order
  size : db.insts.size ≤ db'.insts.size
  old : ∀ {b x}, db.insts.get b = some x →
    ∃ x', db'.insts.get b = some x' ∧ unlinked x' = unlinked x ∧ x'.father = x.father
  back : ∀ {b x'}, db'.insts.get b = some x' → b < db.insts.size →
    ∃ x, db.insts.get b = some x ∧ unlinked x' = unlinked x ∧ x'.father = x.father

namespace Ext
variable {db db' db'' : Db}

theorem refl (db : Db) : Ext db db :=
  ⟨rfl,rfl,rfl,rfl,le_rfl,fun found => ⟨_,found,rfl,rfl⟩,fun found _ => ⟨_,found,rfl,rfl⟩⟩
theorem trans (first : Ext db db') (second : Ext db' db'') : Ext db db'' where
  objs := second.objs.trans first.objs
  cfg_all_obj := second.cfg_all_obj.trans first.cfg_all_obj
  orphaned_objects := second.orphaned_objects.trans first.orphaned_objects
  topological_order := second.topological_order.trans first.topological_order
  size := le_trans first.size second.size
  old found := by
    obtain ⟨y,there,same,up⟩ := first.old found
    obtain ⟨z,later,same',up'⟩ := second.old there
    exact ⟨z,later,same'.trans same,up'.trans up⟩
  back found before := by
    obtain ⟨y,there,same,up⟩ := second.back found (lt_of_lt_of_le before first.size)
    obtain ⟨x,earlier,same',up'⟩ := first.back there before
    exact ⟨x,earlier,same.trans same',up.trans up'⟩
theorem of_grown {f a i : Nat} {new : CfgInstance} (grown : Grown db db' f a i new) : Ext db db' where
  objs := grown.objs
  cfg_all_obj := grown.cfg_all_obj
  orphaned_objects := grown.orphaned_objects
  topological_order := grown.topological_order
  size := by rw [grown.size]; omega
  old found := (grown.forward found).2
  back found before := by
    rcases grown.backward found with ⟨isNew,_⟩ | ⟨_,x,old,same,up⟩
    · have := grown.fresh; omega
    · exact ⟨x,old,same.symm,up.symm⟩
/-- Only the table got longer. -/
theorem of_table (db : Db) (table : List (Option Nat)) : Ext db {db with cfg_all_inst := table} :=
  ⟨rfl,rfl,rfl,rfl,le_rfl,fun found => ⟨_,found,rfl,rfl⟩,fun found _ => ⟨_,found,rfl,rfl⟩⟩
end Ext

/-- The OIDs of the new instances have the property `P` and are different; none of
    them is scheduled for removal. -/
structure Fresh (db db' : Db) (P : CStr → Prop) : Prop where
  each : ∀ {b x}, db.insts.size ≤ b → db'.insts.get b = some x → x.remove = false ∧ P x.oid
  distinct : ∀ {b c x y}, db.insts.size ≤ b → db.insts.size ≤ c → db'.insts.get b = some x →
    db'.insts.get c = some y → x.oid = y.oid → b = c

namespace Fresh
variable {db db' db'' : Db} {P Q R : CStr → Prop}

theorem none (same : db'.insts.size = db.insts.size) : Fresh db db' P where
  each beyond found := by have := Heap.lt_size found; omega
  distinct beyond _ found _ _ := by have := Heap.lt_size found; omega
theorem trans (first : Fresh db db' P) (second : Fresh db' db'' Q) (ext' : Ext db' db'')
    (apart : ∀ s, P s → ¬ Q s) (left : ∀ s, P s → R s) (right : ∀ s, Q s → R s) : Fresh db db'' R := by
  have kind : ∀ {b x}, db.insts.size ≤ b → db''.insts.get b = some x →
      (db'.insts.size ≤ b ∧ x.remove = false ∧ Q x.oid) ∨
        ∃ y, db'.insts.get b = some y ∧ x.oid = y.oid ∧ x.remove = false ∧ P x.oid := by
    intro b x beyond found
    by_cases later : db'.insts.size ≤ b
    · exact .inl ⟨later,second.each later found⟩
    · obtain ⟨y,there,same,_⟩ := ext'.back found (by omega)
      obtain ⟨stays,here⟩ := first.each beyond there
      exact .inr ⟨y,there,unlinked_oid same,(unlinked_remove same).trans stays,by rw [unlinked_oid same]; exact here⟩
  refine ⟨fun beyond found => ?_,fun beyond beyond' found found' same => ?_⟩
  · grind
  · rcases kind beyond found with ⟨later,_,here⟩ | ⟨y,there,oid,_,here⟩
    · rcases kind beyond' found' with ⟨later',_,_⟩ | ⟨_,_,_,_,here'⟩
      · exact second.distinct later later' found found' same
      · exact absurd (same ▸ here) (apart _ here')
    · rcases kind beyond' found' with ⟨_,_,here'⟩ | ⟨y',there',oid',_,_⟩
      · exact absurd here' (apart _ (same ▸ here))
      · exact first.distinct beyond beyond' there there' (by rw [← oid,← oid',same])
theorem imp (fresh : Fresh db db' P) (weaker : ∀ s, P s → Q s) : Fresh db db' Q where
  each beyond found := ⟨(fresh.each beyond found).1,weaker _ (fresh.each beyond found).2⟩
  distinct := fresh.distinct
end Fresh

section
variable {db db' : Db} {okids kids : Nat → List Nat} {par_inst obj c : Nat} {rc : Rc}

theorem InstTree.enlarge (tree : InstTree db kids) {i : Nat} {table : List (Option Nat)}
    (taken : takeSlot db.cfg_all_inst CFG_INST_NUM = some (i,table)) :
    InstTree {db with cfg_all_inst := table} kids := by
  obtain ⟨index,inside,_,slots,grows⟩ := takeSlot_spec (by decide) taken
  refine ⟨tree.forest,tree.root,tree.path,?_,?_,?_,tree.number,tree.seq,?_⟩
  · intro a i found notRoot
    obtain ⟨bound,there⟩ := tree.entry found notRoot
    refine ⟨?_,(slots _).trans there⟩
    change _ < table.length
    rcases grows with rfl | ⟨_,longer⟩
    · exact bound
    · omega
  · intro j a there
    exact tree.slot ((slots j).symm.trans there)
  · exact (slots 0).trans tree.first
  · obtain ⟨divides,bound⟩ := tree.chunks
    rcases grows with rfl | ⟨full,longer⟩
    · exact ⟨divides,bound⟩
    · change CFG_INST_NUM ∣ table.length ∧ table.length ≤ _
      unfold CFG_HANDLE_MAX_INDEX at index
      unfold CFG_INST_NUM at divides longer ⊢
      omega

variable {par : CfgInstance}

/-- The OID of an automatic child names one component more than the one of its father. -/
theorem components_childOid (tree : ObjTree db okids) {o : CfgObject}
    (object : db.objs.get obj = some o) (notRoot : obj ≠ cfg_obj_root) :
    components (childOid par o) = components par.oid ++ [⟨o.subid,[]⟩] := by
  obtain ⟨nonempty,slash,colon,_⟩ := tree.named object notRoot
  unfold childOid
  by_cases top : par.oid = "/:".toList
  · rw [if_pos top,components_child slash colon nonempty (by simp),top]
    rfl
  · rw [if_neg top,components_child slash colon nonempty top]
/-- A son in the tree of objects is not the root. -/
theorem ObjTree.son_not_root (tree : ObjTree db okids) {f : Nat} (son : obj ∈ okids f) : obj ≠ cfg_obj_root :=
  fun equal => tree.forest.root_not_kid f (equal ▸ son)
theorem ObjTree.son (tree : ObjTree db okids) {f : Nat} (son : obj ∈ okids f) :
    ∃ o, db.objs.get obj = some o ∧ o.father = some f := by
  obtain ⟨k,live,father⟩ := tree.forest.kid son
  obtain ⟨o,found,rfl⟩ := objLinks_some live
  exact ⟨o,found,father⟩

/-- The string from the root's point of view is empty. -/
def parOid (par : CfgInstance) : CStr := if par.oid = "/:".toList then [] else par.oid
theorem childOid_eq (par : CfgInstance) (o : CfgObject) : childOid par o = parOid par ++ '/' :: (o.subid ++ [':']) := rfl
/-- The beginning of the OIDs of an automatic child and of everything below it. -/
def StartsChild (par : CStr) (sub : CStr) (s : CStr) : Prop := (par ++ '/' :: (sub ++ [':'])) <+: s

theorem startsChild_apart {par sub sub' s : CStr} (colon : ':' ∉ sub) (colon' : ':' ∉ sub')
    (here : StartsChild par sub s) (there : StartsChild par sub' s) : sub = sub' := by
  obtain ⟨rest,rfl⟩ := here
  obtain ⟨rest',equal⟩ := there
  have tails : sub' ++ ':' :: rest' = sub ++ ':' :: rest := by simpa using equal
  have cut := strchr_append colon rest
  rw [← tails,strchr_append colon' rest'] at cut
  exact (of_pair cut).1.symm

variable [Libc]

/-- `cfg_add_with_obj_and_parent` links a new instance or leaves all instances as they were. -/
theorem addWith_cases (added : cfg_add_with_obj_and_parent db par_inst obj = some (db',rc,c)) :
    ∃ par o, db.insts.get par_inst = some par ∧ db.objs.get obj = some o ∧
      ((rc ≠ none ∧ (db' = db ∨ ∃ i table, takeSlot db.cfg_all_inst CFG_INST_NUM = some (i,table) ∧
          db' = {db with cfg_all_inst := table})) ∨
        (rc = none ∧ ∃ i table val, takeSlot db.cfg_all_inst CFG_INST_NUM = some (i,table) ∧
          initialVal o = .ok val ∧
          linkInstance db table i par_inst none obj (childOid par o) [] val = some (db',c))) := by
  unfold cfg_add_with_obj_and_parent at added
  obtain ⟨par,parent,added⟩ := of_bind added
  obtain ⟨o,object,added⟩ := of_bind added
  refine ⟨par,o,parent,object,?_⟩
  cases taken : takeSlot db.cfg_all_inst CFG_INST_NUM with
  | none =>
    simp only [taken,some_inj,Prod.mk.injEq] at added
    obtain ⟨rfl,rfl,_⟩ := added
    exact .inl ⟨by simp,.inl rfl⟩
  | some slot =>
    obtain ⟨i,table⟩ := slot
    simp only [taken] at added
    cases value : initialVal o with
    | error err =>
      simp only [value,some_inj,Prod.mk.injEq] at added
      obtain ⟨rfl,rfl,_⟩ := added
      exact .inl ⟨by simp,.inr ⟨i,table,rfl,rfl⟩⟩
    | ok val =>
      simp only [value] at added
      obtain ⟨⟨db1,a⟩,linked,added⟩ := of_bind added
      obtain ⟨rfl,rfl,rfl⟩ := of_triple added
      exact .inr ⟨rfl,i,table,val,rfl,rfl,linked⟩

variable (objTree : ObjTree db okids) (tree : InstTree db kids) (parent : db.insts.get par_inst = some par)
include objTree tree parent
/-- An automatic child of the instance `par_inst`, an instance of the father of `obj`. -/
theorem addWith_spec (son : obj ∈ okids par.obj) (added : cfg_add_with_obj_and_parent db par_inst obj = some (db',rc,c)) :
    (∃ kids', InstTree db' kids') ∧ Ext db db' ∧ ∃ o, db.objs.get obj = some o ∧
      Fresh db db' (· = childOid par o) ∧
      (rc = none → ∃ x, db'.insts.get c = some x ∧ x.obj = obj ∧ x.oid = childOid par o ∧ c = db.insts.size ∧
        db'.insts.size = db.insts.size+1) := by
  obtain ⟨par',o,parent',object,cases'⟩ := addWith_cases added
  have same : par' = par := some.inj (parent'.symm.trans parent)
  subst same
  obtain ⟨o',object',father⟩ := objTree.son son
  have same : o' = o := some.inj (object'.symm.trans object)
  subst same
  rcases cases' with ⟨failed,rfl | ⟨i,table,taken,rfl⟩⟩ | ⟨rfl,i,table,val,taken,_,linked⟩
  · exact ⟨⟨kids,tree⟩,Ext.refl _,o',object,Fresh.none rfl,fun done => absurd done failed⟩
  · exact ⟨⟨kids,tree.enlarge taken⟩,Ext.of_table ..,o',object,Fresh.none rfl,fun done => absurd done failed⟩
  · have comps : components (childOid par' o') = components par'.oid ++ [⟨o'.subid,[]⟩] :=
      components_childOid objTree object (objTree.son_not_root son)
    obtain ⟨⟨brother,grown⟩,tree'⟩ := linkInstance_tree tree parent (show kids par_inst = [] ++ kids par_inst from rfl) rfl taken
      object father comps linked
    have only : ∀ {b x}, db.insts.size ≤ b → db'.insts.get b = some x → b = c ∧ x.remove = false ∧
        x.oid = childOid par' o' ∧ x.obj = obj := by
      intro b x beyond found
      rcases grown.backward found with ⟨isNew,same⟩ | ⟨_,y,old,_⟩
      · exact ⟨isNew,unlinked_remove same,unlinked_oid same,unlinked_obj same⟩
      · have := Heap.lt_size old; omega
    refine ⟨⟨_,tree'⟩,Ext.of_grown grown,o',object,⟨fun beyond found => ?_,fun beyond beyond' found found' _ => ?_⟩,?_⟩
    · grind
    · exact (only beyond found).1.trans (only beyond' found').1.symm
    · intro _
      have data := grown.insts c
      simp only [if_true] at data
      obtain ⟨x,found,same⟩ := of_map data
      exact ⟨x,found,unlinked_obj same,unlinked_oid same,grown.fresh,grown.size⟩

/-- All automatic children from the sons `rest` of the object on, with everything below them. -/
theorem addChildren_spec {fuel : Nat} {pre rest : List Nat} (split : okids par.obj = pre ++ rest)
    (added : cfg_db_add_children fuel db par_inst rest.head? = some (db',rc)) :
    (∃ kids', InstTree db' kids') ∧ Ext db db' ∧ Fresh db db' (fun s => ∃ obj ∈ rest, ∃ o,
      db.objs.get obj = some o ∧ StartsChild (parOid par) o.subid s) := by
  induction fuel generalizing db db' kids par par_inst pre rest rc with
  | zero =>
    cases rest with
    | nil =>
      simp only [List.head?_nil,cfg_db_add_children,some_inj,Prod.mk.injEq] at added
      obtain ⟨rfl,_⟩ := added
      exact ⟨⟨kids,tree⟩,Ext.refl _,Fresh.none rfl⟩
    | cons obj rest => simp [cfg_db_add_children] at added
  | succ fuel ih =>
    cases rest with
    | nil =>
      simp only [List.head?_nil,cfg_db_add_children,some_inj,Prod.mk.injEq] at added
      obtain ⟨rfl,_⟩ := added
      exact ⟨⟨kids,tree⟩,Ext.refl _,Fresh.none rfl⟩
    | cons obj rest =>
      have son : obj ∈ okids par.obj := by simp [split]
      obtain ⟨o,object,_⟩ := objTree.son son
      have brother : o.brother = rest.head? := objTree.forest.brother_eq pre split (objLinks_eq object)
      have firstSon : o.son = (okids obj).head? := objTree.forest.son_eq (objLinks_eq object)
      have split' : okids par.obj = (pre ++ [obj]) ++ rest := by simpa using split
      obtain ⟨_,_,colon,_⟩ := objTree.named object (objTree.son_not_root son)
      simp only [head?_cons,cfg_db_add_children,object,bind_eq_bind,bind_some] at added
      by_cases onRequest : o.access = .read_create
      · rw [if_pos onRequest,brother] at added
        obtain ⟨tree',ext,fresh⟩ := ih objTree tree parent split' added
        refine ⟨tree',ext,fresh.imp fun s here => ?_⟩
        obtain ⟨q,member,oq,there,starts⟩ := here
        exact ⟨q,by simp [member],oq,there,starts⟩
      · rw [if_neg onRequest] at added
        obtain ⟨⟨db1,rc1,child⟩,first,added⟩ := of_bind added
        obtain ⟨⟨kids1,tree1⟩,ext1,o',object',fresh1,new⟩ := addWith_spec objTree tree parent son first
        have same : o' = o := some.inj (object'.symm.trans object)
        subst same
        have here1 : ∀ s, s = childOid par o' → ∃ q ∈ obj :: rest, ∃ oq, db.objs.get q = some oq ∧
            StartsChild (parOid par) oq.subid s := by
          rintro s rfl
          exact ⟨obj,by simp,o',object,prefix_refl _⟩
        dsimp only at added
        by_cases failed : rc1 ≠ none
        · rw [if_pos failed] at added
          obtain ⟨rfl,_⟩ := of_pair added
          exact ⟨⟨kids1,tree1⟩,ext1,fresh1.imp here1⟩
        rw [if_neg failed] at added
        obtain ⟨x,child',xObj,xOid,_,_⟩ := new (by simpa using failed)
        obtain ⟨⟨db2,rc2⟩,below,added⟩ := of_bind added
        have objTree1 : ObjTree db1 okids := objTree.of_same ext1.objs ext1.cfg_all_obj
        rw [firstSon] at below
        obtain ⟨⟨kids2,tree2⟩,ext2,fresh2⟩ := ih objTree1 tree1 child'
          (show okids x.obj = [] ++ okids obj by rw [xObj]; rfl) below
        -- What is below the child has a longer OID, which starts with the one of the child and a slash.
        have parX : parOid x = childOid par o' := by
          unfold parOid
          rw [if_neg,xOid]
          intro top
          have length := congrArg List.length (xOid.symm.trans top)
          have := length_pos_iff.mpr (objTree.named object (objTree.son_not_root son)).1
          simp [childOid] at length
          omega
        have under : ∀ s, (∃ q ∈ okids obj, ∃ oq, db1.objs.get q = some oq ∧ StartsChild (parOid x) oq.subid s) →
            StartsChild (parOid par) o'.subid s ∧ s ≠ childOid par o' := by
          rintro s ⟨q,_,oq,_,rest,rfl⟩
          rw [parX,childOid_eq]
          refine ⟨⟨'/' :: (oq.subid ++ [':']) ++ rest,by simp⟩,fun equal => ?_⟩
          have length := congrArg List.length equal
          simp at length
        have ext12 := ext1.trans ext2
        have fresh12 : Fresh db db2 (StartsChild (parOid par) o'.subid) :=
          fresh1.trans fresh2 ext2 (fun s here there => (under s there).2 here)
            (fun s here => by rw [here]; exact prefix_refl _) (fun s here => (under s here).1)
        have here12 : ∀ s, StartsChild (parOid par) o'.subid s → ∃ q ∈ obj :: rest, ∃ oq, db.objs.get q = some oq ∧
            StartsChild (parOid par) oq.subid s := fun s here => ⟨obj,by simp,o',object,here⟩
        dsimp only at added
        by_cases failed2 : rc2 ≠ none
        · rw [if_pos failed2] at added
          obtain ⟨rfl,_⟩ := of_pair added
          exact ⟨⟨kids2,tree2⟩,ext12,fresh12.imp here12⟩
        rw [if_neg failed2,brother] at added
        obtain ⟨par2,parent2,samePar,_⟩ := ext12.old parent
        have objTree2 : ObjTree db2 okids := objTree.of_same ext12.objs ext12.cfg_all_obj
        have parOid2 : parOid par2 = parOid par := by unfold parOid; rw [unlinked_oid samePar]
        obtain ⟨tree3,ext3,fresh3⟩ := ih objTree2 tree2 parent2 (by rw [unlinked_obj samePar]; exact split') added
        refine ⟨tree3,ext12.trans ext3,fresh12.trans fresh3 ext3 ?_ here12 ?_⟩
        · rintro s here ⟨q,member,oq,there,starts⟩
          rw [ext12.objs] at there
          have sonQ : q ∈ okids par.obj := by simp [split,member]
          rw [parOid2] at starts
          obtain ⟨_,_,colonQ,_⟩ := objTree.named there (objTree.son_not_root sonQ)
          have sameSub := startsChild_apart colon colonQ here starts
          have equal := objTree.siblings son sonQ object there sameSub
          subst equal
          have twice := split ▸ objTree.forest.nodup par.obj
          exact (nodup_cons.mp (nodup_append.mp twice).2.1).1 member
        · rintro s ⟨q,member,oq,there,starts⟩
          rw [ext12.objs] at there
          rw [parOid2] at starts
          exact ⟨q,by simp [member],oq,there,starts⟩
end

section
variable [Libc] {db db' : Db} {okids kids : Nat → List Nat} {oid_s : CStr} {type : CfgValType} {val : CfgInstVal}
  {rc : Rc} {handle : Nat}

/-- `cfg_db_add` up to the point where it links the instance: the father, the
    object and the place among the brothers. -/
structure AddPlace (db : Db) (oid_s : CStr) (type : CfgValType) (oid : CfgOid) (f obj : Nat) (fi : CfgInstance)
    (o : CfgObject) (s : CfgSubid) (prev next : Option Nat) : Prop where
  convert : cfg_convert_oid_str oid_s = some oid
  inst : oid.inst = true
  father : lookForFather db.insts CfgInstance.toLinks (instIs db) oid.ids cfg_inst_root = some (some f)
  found : db.insts.get f = some fi
  last : oid.ids.getLast? = some s
  object : ∃ fobj, db.objs.get fi.obj = some fobj ∧
    scan db.objs (fun x => x.brother) (objIs s) db.objs.size fobj.son = some (some obj)
  there : db.objs.get obj = some o
  typed : o.type = type ∨ type = .none
  place : scanPrev db.insts (fun x => x.brother) (stopsAt oid_s) db.insts.size none fi.son = some (prev,next)

/-- How `cfg_db_add` ends. -/
inductive AddResult (db : Db) (oid_s : CStr) (type : CfgValType) (val : CfgInstVal) : Db → Rc → Nat → Prop
  /-- Before the scan of the brothers. -/
  | refused (rc : Rc) (failed : rc ≠ none) (other : rc ≠ te .EEXIST) : AddResult db oid_s type val db rc 0
  /-- The brother that the scan ends at has the OID. -/
  | exist {oid : CfgOid} {f obj a : Nat} {fi x : CfgInstance} {o : CfgObject} {s : CfgSubid} {prev : Option Nat}
      (place : AddPlace db oid_s type oid f obj fi o s prev (some a)) (found : db.insts.get a = some x)
      (same : x.oid = oid_s) : AddResult db oid_s type val db (te .EEXIST) 0
  /-- No slot, or no value. -/
  | noRoom {oid : CfgOid} {f obj : Nat} {fi : CfgInstance} {o : CfgObject} {s : CfgSubid} {prev next : Option Nat}
      {db' : Db} {rc : Rc} (place : AddPlace db oid_s type oid f obj fi o s prev next)
      (other : ∀ a x, next = some a → db.insts.get a = some x → x.oid ≠ oid_s)
      (table : db' = db ∨ ∃ i table, takeSlot db.cfg_all_inst CFG_INST_NUM = some (i,table) ∧
        db' = {db with cfg_all_inst := table})
      (failed : (takeSlot db.cfg_all_inst CFG_INST_NUM = none ∧ rc = te .ETOOMANY) ∨
        ∃ err, addedVal o type val = .error err ∧ rc = te err) : AddResult db oid_s type val db' rc 0
  /-- The instance is linked, and its children are added unless it is an agent's. -/
  | linked {oid : CfgOid} {f obj i a : Nat} {fi inst : CfgInstance} {o : CfgObject} {s : CfgSubid}
      {prev next : Option Nat} {table : List (Option Nat)} {v : CfgInstVal} {db1 db2 db' : Db} {rc : Rc}
      (place : AddPlace db oid_s type oid f obj fi o s prev next)
      (other : ∀ a x, next = some a → db.insts.get a = some x → x.oid ≠ oid_s)
      (slot : takeSlot db.cfg_all_inst CFG_INST_NUM = some (i,table)) (value : addedVal o type val = .ok v)
      (link : linkInstance db table i f prev obj oid_s s.name v = some (db1,a))
      (max : db2 = {db1 with cfg_all_inst_max := max db1.cfg_all_inst_max i}) (new : db1.insts.get a = some inst)
      (children : (startsWith CFG_TA_PREFIX inst.oid = true ∧ db' = db2 ∧ rc = none) ∨
        (startsWith CFG_TA_PREFIX inst.oid = false ∧
          cfg_db_add_children db2.objs.size db2 a o.son = some (db',rc))) :
      AddResult db oid_s type val db' rc inst.handle

theorem cfg_db_add_cases (added : cfg_db_add db oid_s type val = some (db',rc,handle)) :
    AddResult db oid_s type val db' rc handle := by
  unfold cfg_db_add at added
  cases convert : cfg_convert_oid_str oid_s with
  | none =>
    simp only [convert,some_inj,Prod.mk.injEq] at added
    obtain ⟨rfl,rfl,rfl⟩ := added
    exact .refused _ (by simp) (by simp [te])
  | some oid =>
    simp only [convert] at added
    by_cases inst : oid.inst
    · rw [if_neg (by simpa using inst)] at added
      obtain ⟨father,lookup,added⟩ := of_bind added
      cases father with
      | none =>
        obtain ⟨rfl,rfl,rfl⟩ := of_triple added
        exact .refused _ (by simp) (by simp [te])
      | some f =>
        obtain ⟨fi,found,added⟩ := of_bind added
        obtain ⟨fobj,fatherObj,added⟩ := of_bind added
        obtain ⟨s,last,added⟩ := of_bind added
        obtain ⟨obj,scanned,added⟩ := of_bind added
        cases obj with
        | none =>
          obtain ⟨rfl,rfl,rfl⟩ := of_triple added
          exact .refused _ (by simp) (by simp [te])
        | some obj =>
          obtain ⟨o,there,added⟩ := of_bind added
          by_cases badType : o.type ≠ type ∧ type ≠ .none
          · rw [if_pos badType] at added
            obtain ⟨rfl,rfl,rfl⟩ := of_triple added
            exact .refused _ (by simp) (by simp [te])
          rw [if_neg badType] at added
          obtain ⟨⟨prev,next⟩,placed,added⟩ := of_bind added
          have typed : o.type = type ∨ type = .none := by grind
          have place : AddPlace db oid_s type oid f obj fi o s prev next :=
            ⟨convert,inst,lookup,found,last,⟨fobj,fatherObj,scanned⟩,there,typed,placed⟩
          obtain ⟨same,tested,added⟩ := of_bind added
          cases same with
          | true =>
            rw [if_pos rfl] at added
            obtain ⟨rfl,rfl,rfl⟩ := of_triple added
            cases next with
            | none => simp [sameOid] at tested
            | some a =>
              obtain ⟨x,there,equal⟩ := of_map tested
              exact .exist place there (by simpa using equal)
          | false =>
            rw [if_neg (by simp)] at added
            have other : ∀ a x, next = some a → db.insts.get a = some x → x.oid ≠ oid_s := by
              rintro a x rfl foundA equal
              simp [sameOid,foundA,equal] at tested
            cases slot : takeSlot db.cfg_all_inst CFG_INST_NUM with
            | none =>
              simp only [slot,some_inj,Prod.mk.injEq] at added
              obtain ⟨rfl,rfl,rfl⟩ := added
              exact .noRoom place other (.inl rfl) (.inl ⟨slot,rfl⟩)
            | some it =>
              obtain ⟨i,table⟩ := it
              simp only [slot] at added
              cases value : addedVal o type val with
              | error err =>
                simp only [value,some_inj,Prod.mk.injEq] at added
                obtain ⟨rfl,rfl,rfl⟩ := added
                exact .noRoom place other (.inr ⟨i,table,slot,rfl⟩) (.inr ⟨err,value,rfl⟩)
              | ok v =>
                simp only [value] at added
                obtain ⟨⟨db1,a⟩,link,added⟩ := of_bind added
                obtain ⟨inst,new,added⟩ := of_bind added
                by_cases agent : startsWith CFG_TA_PREFIX inst.oid = true
                · rw [if_pos agent] at added
                  obtain ⟨rfl,rfl,rfl⟩ := of_triple added
                  exact .linked place other slot value link rfl new (.inl ⟨agent,rfl,rfl⟩)
                · rw [if_neg agent] at added
                  obtain ⟨⟨db2,rc2⟩,children,added⟩ := of_bind added
                  obtain ⟨rfl,rfl,rfl⟩ := of_triple added
                  exact .linked place other slot value link rfl new (.inr ⟨by simpa using agent,children⟩)
    · rw [if_pos (by simpa using inst)] at added
      obtain ⟨rfl,rfl,rfl⟩ := of_triple added
      exact .refused _ (by simp) (by simp [te])

omit [Libc] in
/-- The place that `cfg_db_add` finds is one in the tree. -/
theorem AddPlace.tree {oid : CfgOid} {f obj : Nat} {fi : CfgInstance} {o : CfgObject} {s : CfgSubid}
    {prev next : Option Nat} (place : AddPlace db oid_s type oid f obj fi o s prev next)
    (objTree : ObjTree db okids) (tree : InstTree db kids) :
    obj ∈ okids fi.obj ∧ o.father = some fi.obj ∧ o.subid = s.subid ∧ fi.remove = false ∧
      components oid_s = components fi.oid ++ [s] ∧
      prev = ((kids f).takeWhile fun a => !testAt db.insts (stopsAt oid_s) a).getLast? ∧
      next = ((kids f).dropWhile fun a => !testAt db.insts (stopsAt oid_s) a).head? := by
  obtain ⟨comps,_,_⟩ := convert_components place.convert
  have lookup := place.father
  rw [comps] at lookup
  obtain ⟨some',fi',found',stays,compsF⟩ := lookForFather_inst objTree tree lookup
  have same : fi' = fi := some.inj (found'.symm.trans place.found)
  subst same
  obtain ⟨fobj,fatherObj,scanned⟩ := place.object
  rw [objTree.scan fatherObj] at scanned
  obtain ⟨member,o',there',up,subid⟩ := objTree.find_son (some.inj scanned)
  have same : o' = o := some.inj (there'.symm.trans place.there)
  subst same
  have last := place.last
  rw [comps,getLast?_cons,List.getLast?_eq_getLast_of_ne_nil some'] at last
  have placed := place.place
  rw [tree.scanPrev place.found] at placed
  simp only [Option.or_none,some_inj,Prod.mk.injEq] at placed
  refine ⟨member,up,subid,stays,?_,placed.1.symm,placed.2.symm⟩
  rw [compsF,← show (components oid_s).getLast some' = s by simpa using last]
  exact (List.dropLast_append_getLast some').symm

/-- What `cfg_db_add` adds are the instance and, unless it is an agent's, instances below it. -/
theorem cfg_db_add_spec (objTree : ObjTree db okids) (tree : InstTree db kids)
    (added : cfg_db_add db oid_s type val = some (db',rc,handle)) :
    (∃ kids', InstTree db' kids') ∧ Ext db db' ∧
      Fresh db db' (fun s => s = oid_s ∨ (startsWith CFG_TA_PREFIX oid_s = false ∧ (oid_s ++ ['/']) <+: s)) ∧
      (rc = none → ∃ a x, db.insts.size ≤ a ∧ db'.insts.get a = some x ∧ x.handle = handle ∧ x.oid = oid_s) := by
  cases cfg_db_add_cases added with
  | refused _ failed => exact ⟨⟨kids,tree⟩,Ext.refl _,Fresh.none rfl,fun done => absurd done failed⟩
  | exist => exact ⟨⟨kids,tree⟩,Ext.refl _,Fresh.none rfl,fun done => absurd done (by simp)⟩
  | noRoom _ _ table failed =>
    have notDone : rc ≠ none := by
      rcases failed with ⟨_,rfl⟩ | ⟨err,_,rfl⟩ <;> simp
    rcases table with rfl | ⟨i,table,slot,rfl⟩
    · exact ⟨⟨kids,tree⟩,Ext.refl _,Fresh.none rfl,fun done => absurd done notDone⟩
    · exact ⟨⟨kids,tree.enlarge slot⟩,Ext.of_table ..,Fresh.none rfl,fun done => absurd done notDone⟩
  | @linked oid f obj i a fi inst o s prev next table v db1 db2 _ _ place other slot value link max new children =>
    obtain ⟨member,up,subid,_,comps,prevEq,_⟩ := place.tree objTree tree
    have splits := (takeWhile_append_dropWhile (p := fun a => !testAt db.insts (stopsAt oid_s) a) (l := kids f)).symm
    obtain ⟨⟨brother,grown⟩,tree1⟩ := linkInstance_tree tree place.found splits prevEq slot place.there up
      (by rw [comps,subid]) link
    have ext1 := Ext.of_grown grown
    obtain ⟨kids2,tree2⟩ : ∃ kids2, InstTree db2 kids2 := by
      rw [max]
      exact ⟨_,tree1.objects rfl rfl rfl fun _ object => ⟨_,object,rfl,rfl⟩⟩
    have ext2 : Ext db db2 := by
      rw [max]
      exact ⟨ext1.objs,ext1.cfg_all_obj,ext1.orphaned_objects,ext1.topological_order,ext1.size,ext1.old,ext1.back⟩
    have insts2 : db2.insts = db1.insts := by rw [max]
    have only : ∀ {b x}, db.insts.size ≤ b → db2.insts.get b = some x →
        b = a ∧ x.remove = false ∧ x.oid = oid_s ∧ x.obj = obj := by
      intro b x beyond found
      rw [insts2] at found
      rcases grown.backward found with ⟨isNew,same⟩ | ⟨_,y,old,_⟩
      · exact ⟨isNew,unlinked_remove same,unlinked_oid same,unlinked_obj same⟩
      · have := Heap.lt_size old; omega
    have fresh2 : Fresh db db2 (· = oid_s) :=
      ⟨fun beyond found => ⟨(only beyond found).2.1,(only beyond found).2.2.1⟩,
        fun beyond beyond' found found' _ => (only beyond found).1.trans (only beyond' found').1.symm⟩
    have beyond : db.insts.size ≤ a := by rw [grown.fresh]
    have new2 : db2.insts.get a = some inst := by rw [insts2]; exact new
    obtain ⟨_,_,instOid,instObj⟩ := only beyond new2
    rcases children with ⟨_,rfl,_⟩ | ⟨noAgent,below⟩
    · grind
    · have objTree2 : ObjTree db2 okids := objTree.of_same ext2.objs ext2.cfg_all_obj
      have object2 : db2.objs.get obj = some o := by rw [ext2.objs]; exact place.there
      have firstSon : o.son = (okids obj).head? := objTree2.forest.son_eq (objLinks_eq object2)
      rw [firstSon] at below
      obtain ⟨tree3,ext3,fresh3⟩ := addChildren_spec objTree2 tree2 new2
        (show okids inst.obj = [] ++ okids obj by rw [instObj]; rfl) below
      -- The OID of the instance is not the one of the root, it has a component.
      have notRoot : oid_s ≠ "/:".toList := by
        intro top
        have empty : components oid_s = [] := by rw [top]; rfl
        simp [comps] at empty
      have parInst : parOid inst = oid_s := by unfold parOid; rw [instOid,if_neg notRoot]
      have under : ∀ s, (∃ q ∈ okids obj, ∃ oq, db2.objs.get q = some oq ∧ StartsChild (parOid inst) oq.subid s) →
          (oid_s ++ ['/']) <+: s := by
        rintro s ⟨q,_,oq,_,rest,rfl⟩
        rw [parInst]
        exact ⟨(oq.subid ++ [':']) ++ rest,by simp⟩
      refine ⟨tree3,ext2.trans ext3,fresh2.trans fresh3 ext3 ?_ (fun s here => .inl here)
        fun s here => .inr ⟨by rw [← instOid]; exact noAgent,under s here⟩,fun _ => ?_⟩
      swap
      · obtain ⟨x,found,same,_⟩ := ext3.old new2
        exact ⟨a,x,beyond,found,unlinked_handle same,(unlinked_oid same).trans instOid⟩
      rintro s rfl here
      obtain ⟨rest,equal⟩ := under _ here
      have length := congrArg List.length equal
      simp at length
end

section
variable [Libc] {db db' : Db} {okids kids : Nat → List Nat} {obj father : Nat} {o f : CfgObject} {rc : Rc}

/-- The slot of the table that an instance has. -/
def slotOf (a : Nat) (i : CfgInstance) : Nat := if a = cfg_inst_root then 0 else handleIndex i.handle

omit [Libc] in
theorem InstTree.slot_iff (tree : InstTree db kids) {j a : Nat} :
    (db.cfg_all_inst[j]?).join = some a ↔ ∃ i, db.insts.get a = some i ∧ j = slotOf a i := by
  constructor
  · intro there
    rcases tree.slot there with ⟨rfl,rfl⟩ | ⟨notRoot,i,found,index⟩
    · obtain ⟨r,found,_⟩ := tree.root
      exact ⟨r,found,by simp [slotOf]⟩
    · exact ⟨i,found,by simp [slotOf,notRoot,index]⟩
  · rintro ⟨i,found,rfl⟩
    unfold slotOf
    by_cases top : a = cfg_inst_root
    · rw [if_pos top,top]; exact tree.first
    · rw [if_neg top]; exact (tree.entry found top).2
omit [Libc] in
theorem slotOf_unlinked {a : Nat} {x y : CfgInstance} (same : unlinked x = unlinked y) : slotOf a x = slotOf a y := by
  unfold slotOf; rw [unlinked_handle same]

/-- Below instances of `father` in slots from `i` on, one new instance of `obj` each. -/
structure AllAdded (db db' : Db) (father obj : Nat) (o : CfgObject) (i : Nat) : Prop where
  each : ∀ {b x}, db.insts.size ≤ b → db'.insts.get b = some x → x.remove = false ∧ x.obj = obj ∧
    ∃ a par, x.father = some a ∧ db.insts.get a = some par ∧ par.obj = father ∧ i ≤ slotOf a par ∧
      x.oid = childOid par o
  distinct : ∀ {b c x y}, db.insts.size ≤ b → db.insts.size ≤ c → db'.insts.get b = some x →
    db'.insts.get c = some y → x.father = y.father → b = c

omit [Libc] in
theorem AllAdded.none {i : Nat} (same : db'.insts.size = db.insts.size) : AllAdded db db' father obj o i where
  each beyond found := by have := Heap.lt_size found; omega
  distinct beyond _ found _ _ := by have := Heap.lt_size found; omega

/-- The loop that adds the instances of a new object. -/
theorem addAllFrom_spec {fuel i : Nat} (objTree : ObjTree db okids) (tree : InstTree db kids)
    (object : db.objs.get obj = some o) (up : o.father = some father)
    (added : addAllFrom obj fuel i db = some (db',rc)) :
    (∃ kids', InstTree db' kids') ∧ Ext db db' ∧ AllAdded db db' father obj o i := by
  induction fuel generalizing db db' kids i rc with
  | zero => cases added
  | succ fuel ih =>
    unfold addAllFrom at added
    have skip : ∀ {j}, AllAdded db db' father obj o (j+1) → AllAdded db db' father obj o j := fun all =>
      ⟨fun beyond found => by
        obtain ⟨stays,same,a,par,upX,parent,isF,later,oid⟩ := all.each beyond found
        exact ⟨stays,same,a,par,upX,parent,isF,by omega,oid⟩,all.distinct⟩
    split at added
    · cases slot : (db.cfg_all_inst[i]?).join with
      | none =>
        simp only [slot] at added
        obtain ⟨tree',ext,all⟩ := ih objTree tree object added
        exact ⟨tree',ext,skip all⟩
      | some a =>
        obtain ⟨par,parent,atSlot⟩ := tree.slot_iff.mp slot
        simp only [slot,object,bind_eq_bind,bind_some,up,parent] at added
        obtain ⟨f,fatherObj,added⟩ := of_bind added
        obtain ⟨parObj,parObject,added⟩ := of_bind added
        by_cases other : parObj.handle ≠ f.handle
        · rw [if_pos other] at added
          obtain ⟨tree',ext,all⟩ := ih objTree tree object added
          exact ⟨tree',ext,skip all⟩
        rw [if_neg other] at added
        have isFather : par.obj = father := by
          have one := (objTree.entry parObject).2
          have two := (objTree.entry fatherObj).2
          rw [not_not.mp other,two] at one
          exact (some.inj one).symm
        have son : obj ∈ okids par.obj := by
          rcases objTree.forest.born (objLinks_eq object) with top | ⟨f',up',member⟩
          · obtain ⟨k,live,noFather,_⟩ := objTree.forest.top
            have same : o.toLinks = k := some.inj ((objLinks_eq object).symm.trans (top ▸ live))
            rw [← same,up] at noFather; cases noFather
          · have same : father = f' := some.inj (up.symm.trans up')
            rw [isFather,same]; exact member
        obtain ⟨⟨db1,rc1,c⟩,first,added⟩ := of_bind added
        dsimp only at added
        obtain ⟨⟨kids1,tree1⟩,ext1,o',object',fresh1,new⟩ := addWith_spec objTree tree parent son first
        have same : o' = o := some.inj (object'.symm.trans object)
        subst same
        -- What is known of the instance that is new after the first step.
        have new1 : ∀ {b x}, db.insts.size ≤ b → db1.insts.get b = some x →
            b = db.insts.size ∧ x.remove = false ∧ x.obj = obj ∧ x.father = some a ∧ x.oid = childOid par o' := by
          intro b x beyond found
          obtain ⟨stays,oid⟩ := fresh1.each beyond found
          obtain ⟨par',o2,parent',object2,cases'⟩ := addWith_cases first
          have equal : par' = par := some.inj (parent'.symm.trans parent)
          subst equal
          have equal : o2 = o' := some.inj (object2.symm.trans object)
          subst equal
          rcases cases' with ⟨_,rfl | ⟨_,_,_,rfl⟩⟩ | ⟨rfl,j,table,val,taken,_,linked⟩
          · have := Heap.lt_size found; omega
          · have := Heap.lt_size found; simp at this; omega
          · obtain ⟨⟨brother,grown⟩,_⟩ := linkInstance_tree tree parent (show kids a = [] ++ kids a from rfl) rfl taken
              object (by rw [up,isFather]) (components_childOid objTree object (objTree.son_not_root son)) linked
            rcases grown.backward found with ⟨isNew,same⟩ | ⟨_,y,old,_⟩
            · have fathers := grown.fathers b
              rw [if_pos isNew] at fathers
              refine ⟨isNew.trans grown.fresh,stays,unlinked_obj same,?_,oid⟩
              simpa [fatherOf,instLinks,found] using fathers
            · have := Heap.lt_size old; omega
        by_cases failed : rc1 ≠ none
        · rw [if_pos failed] at added
          obtain ⟨rfl,_⟩ := of_pair added
          refine ⟨⟨kids1,tree1⟩,ext1,⟨fun beyond found => ?_,fun beyond beyond' found found' _ => ?_⟩⟩
          · obtain ⟨_,stays,isObj,upX,oid⟩ := new1 beyond found
            exact ⟨stays,isObj,a,par,upX,parent,isFather,by omega,oid⟩
          · exact (new1 beyond found).1.trans (new1 beyond' found').1.symm
        rw [if_neg failed] at added
        have objTree1 : ObjTree db1 okids := objTree.of_same ext1.objs ext1.cfg_all_obj
        obtain ⟨tree2,ext2,all2⟩ := ih objTree1 tree1 (by rw [ext1.objs]; exact object) added
        have kind : ∀ {b x}, db.insts.size ≤ b → db'.insts.get b = some x → x.remove = false ∧ x.obj = obj ∧
            ((b = db.insts.size ∧ x.father = some a ∧ x.oid = childOid par o') ∨
              (db1.insts.size ≤ b ∧ ∃ a' par', x.father = some a' ∧ db.insts.get a' = some par' ∧ par'.obj = father ∧
                i+1 ≤ slotOf a' par' ∧ x.oid = childOid par' o')) := by
          intro b x beyond found
          by_cases later : db1.insts.size ≤ b
          · obtain ⟨stays,isObj,a',par',upX,parent',isF,behind,oid⟩ := all2.each later found
            refine ⟨stays,isObj,.inr ⟨later,?_⟩⟩
            by_cases old : a' < db.insts.size
            · obtain ⟨par0,parent0,same,_⟩ := ext1.back parent' old
              exact ⟨a',par0,upX,parent0,by rw [← unlinked_obj same]; exact isF,
                by rw [← slotOf_unlinked same]; exact behind,
                by rw [oid]; unfold childOid; rw [unlinked_oid same]⟩
            · -- An instance of the object itself is not one of its father.
              obtain ⟨_,_,isObj',_⟩ := new1 (by omega) parent'
              have younger := objTree.forest.older son
              omega
          · obtain ⟨y,there,same,upY⟩ := ext2.back found (by omega)
            obtain ⟨here,stays,isObj,upX,oid⟩ := new1 beyond there
            exact ⟨(unlinked_remove same).trans stays,(unlinked_obj same).trans isObj,
              .inl ⟨here,upY.trans upX,(unlinked_oid same).trans oid⟩⟩
        refine ⟨tree2,ext1.trans ext2,⟨fun beyond found => ?_,fun beyond beyond' found found' sameUp => ?_⟩⟩
        · obtain ⟨stays,isObj,⟨_,upX,oid⟩ | ⟨_,a',par',upX,parent',isF,behind,oid⟩⟩ := kind beyond found
          · exact ⟨stays,isObj,a,par,upX,parent,isFather,by omega,oid⟩
          · exact ⟨stays,isObj,a',par',upX,parent',isF,by omega,oid⟩
        · obtain ⟨_,_,⟨here,upX,_⟩ | ⟨later,a',par',upX,parent',_,behind,_⟩⟩ := kind beyond found
          · obtain ⟨_,_,⟨here',_,_⟩ | ⟨_,a'',par'',upY,parent'',_,behind',_⟩⟩ := kind beyond' found'
            · exact here.trans here'.symm
            · have equal : a'' = a := some.inj (upY.symm.trans (sameUp.symm.trans upX))
              subst equal
              have equal : par'' = par := some.inj (parent''.symm.trans parent)
              subst equal
              omega
          · obtain ⟨_,_,⟨_,upY,_⟩ | ⟨later',_,_,_,_,_,_,_⟩⟩ := kind beyond' found'
            · have equal : a' = a := some.inj (upX.symm.trans (sameUp.trans upY))
              subst equal
              have equal : par' = par := some.inj (parent'.symm.trans parent)
              subst equal
              omega
            · exact all2.distinct later later' found found' sameUp
    · obtain ⟨rfl,_⟩ := of_pair added
      exact ⟨⟨kids,tree⟩,Ext.refl _,AllAdded.none rfl⟩
end

section
variable [Libc] {db db' : Db} {oid_s : CStr} {rc : Rc} {handle : Nat}

omit [Libc] in
/-- The loop of `cfg_db_find` ends where the other lookups do. -/
theorem findInst_descend {ids : List CfgSubid} {p last last' : Option Nat} {missing missing' atEnd : Bool} {a : Nat}
    (found : findInst db ids p last missing = some (some a,atEnd,last',missing')) :
    descendInst db ids p = some (some a) := by
  induction ids generalizing p last missing with
  | nil => cases found
  | cons id ids ih =>
    cases ids with
    | nil =>
      obtain ⟨tmp,scanned,found⟩ := of_bind found
      simp only [some_inj,Prod.mk.injEq] at found
      rw [found.1] at scanned
      exact scanned
    | cons id' ids =>
      obtain ⟨tmp,scanned,found⟩ := of_bind found
      unfold descendInst descend
      rw [scanned]
      cases tmp with
      | none => simp at found
      | some b =>
        obtain ⟨inst,there,found⟩ := of_bind found
        obtain ⟨obj,_,found⟩ := of_bind found
        simpa [there,descendInst] using ih found

/-- How `cfg_db_find` ends: an instance or an object is found, a missing child is
    added, or the request fails. -/
inductive FindResult (db : Db) (oid_s : CStr) : Db → Rc → Nat → Prop
  | failed (rc : Rc) (failed : rc ≠ none) : FindResult db oid_s db rc 0
  | inst {oid : CfgOid} {a : Nat} {i : CfgInstance} (convert : cfg_convert_oid_str oid_s = some oid)
      (inst : oid.inst = true) (descend : descendInst db oid.ids (some cfg_inst_root) = some (some a))
      (found : db.insts.get a = some i) : FindResult db oid_s db none i.handle
  | obj {oid : CfgOid} {a : Nat} {o : CfgObject} (convert : cfg_convert_oid_str oid_s = some oid)
      (inst : oid.inst = false) (descend : descendObj db oid.ids (some cfg_obj_root) = some (some a))
      (found : db.objs.get a = some o) : FindResult db oid_s db none o.handle
  | added {oid : CfgOid} {db' : Db} {rc : Rc} {handle : Nat} (convert : cfg_convert_oid_str oid_s = some oid)
      (inst : oid.inst = true) (added : cfg_db_add db oid_s .none .none = some (db',rc,handle)) :
      FindResult db oid_s db' rc handle

theorem cfg_db_find_cases (found : cfg_db_find db oid_s = some (db',rc,handle)) : FindResult db oid_s db' rc handle := by
  unfold cfg_db_find at found
  cases convert : cfg_convert_oid_str oid_s with
  | none =>
    simp only [convert,some_inj,Prod.mk.injEq] at found
    obtain ⟨rfl,rfl,rfl⟩ := found
    exact .failed _ (by simp)
  | some oid =>
    simp only [convert] at found
    cases inst : oid.inst with
    | true =>
      rw [if_pos inst] at found
      obtain ⟨⟨tmp,atEnd,last,missing⟩,loop,found⟩ := of_bind found
      cases tmp with
      | some a =>
        obtain ⟨i,there,found⟩ := of_bind found
        obtain ⟨rfl,rfl,rfl⟩ := of_triple found
        exact .inst convert inst (findInst_descend loop) there
      | none =>
        dsimp only at found
        split at found
        · obtain ⟨last,_,found⟩ := of_bind found
          obtain ⟨l,_,found⟩ := of_bind found
          obtain ⟨lobj,_,found⟩ := of_bind found
          obtain ⟨s,_,found⟩ := of_bind found
          obtain ⟨child,_,found⟩ := of_bind found
          cases child with
          | none =>
            obtain ⟨rfl,rfl,rfl⟩ := of_triple found
            exact .failed _ (by simp)
          | some _ => exact .added convert inst found
        · obtain ⟨rfl,rfl,rfl⟩ := of_triple found
          exact .failed _ (by simp)
    | false =>
      rw [if_neg (by simp [inst])] at found
      obtain ⟨tmp,loop,found⟩ := of_bind found
      cases tmp with
      | none =>
        obtain ⟨rfl,rfl,rfl⟩ := of_triple found
        exact .failed _ (by simp)
      | some a =>
        obtain ⟨o,there,found⟩ := of_bind found
        obtain ⟨rfl,rfl,rfl⟩ := of_triple found
        exact .obj convert inst loop there
end
end TestEnvironment.Configurator
