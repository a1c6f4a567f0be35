import TestEnvironment.Configurator.Registration
import TestEnvironment.Lib.Runs

/-!
Every operation on the database keeps both trees, and the initial database has
them; so every database that a run of operations reaches has them.
-/
namespace TestEnvironment.Configurator
open Lib

/-- The database has a tree of objects and a tree of instances. -/
def Trees (db : Db) : Prop := ∃ okids kids, ObjTree db okids ∧ InstTree db kids

section
variable {db db' : Db} {okids kids : Nat → List Nat}

theorem InstTree.agree (tree : InstTree db kids) (agree : Agree core db db') : InstTree db' kids := by
  refine tree.objects agree.insts agree.cfg_all_inst agree.cfg_inst_seq_num fun _ object => ?_
  obtain ⟨o',object',same⟩ := agree.forward object
  exact ⟨o',object',core_father same,core_subid same⟩
variable {master : Nat}

theorem maybe_adopt_cases {oid : CfgOid} (adopted : cfg_maybe_adopt_objects db master oid = some db') :
    ∃ db1 kept, adopt master oid db.orphaned_objects db = some (db1,kept) ∧
      db' = {db1 with orphaned_objects := kept} := by
  unfold cfg_maybe_adopt_objects at adopted
  obtain ⟨⟨db1,kept⟩,adopted,same⟩ := of_bind adopted
  exact ⟨db1,kept,adopted,by simpa using same.symm⟩
theorem maybe_adopt_trees {oid : CfgOid} (objTree : ObjTree db okids) (tree : InstTree db kids)
    (adopted : cfg_maybe_adopt_objects db master oid = some db') : ObjTree db' okids ∧ InstTree db' kids := by
  obtain ⟨db1,kept,adopted',rfl⟩ := maybe_adopt_cases adopted
  obtain ⟨agree,_⟩ := adopt_agree adopted'
  exact ⟨(objTree.agree agree).of_same rfl rfl,
    (tree.agree agree).objects rfl rfl rfl fun _ object => ⟨_,object,rfl,rfl⟩⟩
end

section
variable {db db' : Db} {okids kids : Nat → List Nat} {msg : CfgRegisterMsg} {rc : Rc} {handle : Nat}

/-- `cfg_process_msg_register` up to the point where it creates the object. -/
structure RegisterPlace (db : Db) (msg : CfgRegisterMsg) (oid : CfgOid) (f : Nat) (fo : CfgObject) (id : CfgSubid)
    (i : Nat) (table : List (Option Nat)) : Prop where
  convert : cfg_convert_oid_str msg.oid = some oid
  inst : oid.inst = false
  father : lookForFather db.objs CfgObject.toLinks objIs oid.ids cfg_obj_root = some (some f)
  found : db.objs.get f = some fo
  last : oid.ids.getLast? = some id
  units : ((fo.unit || fo.unit_part) && msg.unit) = false
  alone : scan db.objs (fun x => x.brother) (objIs id) db.objs.size fo.son = some none
  slot : takeSlot db.cfg_all_obj CFG_OBJ_NUM = some (i,table)

/-- The new object depends on its father. -/
def parentDep (msg : CfgRegisterMsg) (f : Nat) : Bool := !msg.no_parent_dep && f ≠ cfg_obj_root && f ≠ cfg_obj_agent

/-- How `cfg_process_msg_register` ends. -/
inductive RegisterResult (db : Db) (msg : CfgRegisterMsg) : Db → Rc → Nat → Prop
  | refused (rc : Rc) (failed : rc ≠ none) : RegisterResult db msg db rc 0
  | linked {oid : CfgOid} {f i : Nat} {fo : CfgObject} {id : CfgSubid} {table : List (Option Nat)} {db2 db' : Db}
      (place : RegisterPlace db msg oid f fo id i table)
      (adopted : cfg_maybe_adopt_objects (linkObject db table (newObject db msg f fo id.subid i) f) db.objs.size oid =
        some db2)
      (parent : (parentDep msg f = true ∧ cfg_create_dep db2 f db.objs.size false = some db') ∨
        (parentDep msg f = false ∧ db' = db2)) : RegisterResult db msg db' none i

theorem cfg_process_msg_register_cases (registered : cfg_process_msg_register db msg = some (db',rc,handle)) :
    RegisterResult db msg db' rc handle := by
  unfold cfg_process_msg_register at registered
  have refuse : ∀ {rc0 : Rc}, rc0 ≠ none → some (db,rc0,0) = some (db',rc,handle) →
      RegisterResult db msg db' rc handle := by
    rintro rc0 failed ⟨⟩
    exact .refused _ failed
  cases convert : cfg_convert_oid_str msg.oid with
  | none =>
    simp only [convert] at registered
    exact refuse (by simp) registered
  | some oid =>
    simp only [convert] at registered
    by_cases inst : oid.inst = true
    · rw [if_pos inst] at registered
      exact refuse (by simp) registered
    rw [if_neg inst] at registered
    obtain ⟨father,lookup,registered⟩ := of_bind registered
    cases father with
    | none => exact refuse (by simp) registered
    | some f =>
      obtain ⟨fo,found,registered⟩ := of_bind registered
      obtain ⟨id,last,registered⟩ := of_bind registered
      by_cases units : ((fo.unit || fo.unit_part) && msg.unit) = true
      · rw [if_pos units] at registered
        exact refuse (by simp) registered
      rw [if_neg units] at registered
      obtain ⟨brother,alone,registered⟩ := of_bind registered
      cases brother with
      | some _ => exact refuse (by simp) registered
      | none =>
        dsimp only at registered
        cases slot : takeSlot db.cfg_all_obj CFG_OBJ_NUM with
        | none =>
          simp only [slot] at registered
          exact refuse (by simp) registered
        | some it =>
          obtain ⟨i,table⟩ := it
          simp only [slot] at registered
          obtain ⟨db2,adopted,registered⟩ := of_bind registered
          have place : RegisterPlace db msg oid f fo id i table :=
            ⟨convert,by simpa using inst,lookup,found,last,by simpa using units,alone,slot⟩
          split at registered
          · rename_i dep
            obtain ⟨db3,parent,registered⟩ := of_bind registered
            obtain ⟨rfl,rfl,rfl⟩ := of_triple registered
            exact .linked place adopted (.inl ⟨dep,parent⟩)
          · rename_i independent
            simp only [bind_eq_bind,bind_some,some_inj,Prod.mk.injEq] at registered
            obtain ⟨rfl,rfl,rfl⟩ := registered
            exact .linked place adopted (.inr ⟨by simpa [parentDep] using independent,rfl⟩)

/-- Elements without names are told apart by their subids. -/
theorem nameless_eq {l l' : List CfgSubid} (named : ∀ c ∈ l, c.name = []) (named' : ∀ c ∈ l', c.name = [])
    (same : l.map CfgSubid.subid = l'.map CfgSubid.subid) : l = l' := by
  induction l generalizing l' with
  | nil => simpa using same.symm
  | cons c l ih =>
    cases l' with
    | nil => simp at same
    | cons c' l' =>
      obtain ⟨here,later⟩ := cons.inj same
      rw [ih (fun d member => named d (by simp [member])) (fun d member => named' d (by simp [member])) later]
      congr 1
      cases c; cases c'
      simp_all
theorem components_nameless {s : CStr} (plain : ':' ∉ s) {c : CfgSubid} (member : c ∈ components s) :
    c.name = [] ∧ c.subid ≠ [] := by
  rw [components_object plain] at member
  obtain ⟨t,token,rfl⟩ := mem_map.mp member
  exact ⟨rfl,(strtok_mem token).1⟩

/-- The place that `cfg_process_msg_register` finds is one in the tree. -/
theorem RegisterPlace.tree {oid : CfgOid} {f i : Nat} {fo : CfgObject} {id : CfgSubid} {table : List (Option Nat)}
    (place : RegisterPlace db msg oid f fo id i table) (tree : ObjTree db okids) :
    components msg.oid = components fo.oid ++ [⟨id.subid,[]⟩] ∧
      (id.subid ≠ [] ∧ '/' ∉ id.subid ∧ ':' ∉ id.subid ∧ ':' ∉ msg.oid) ∧
      ∀ {b y}, b ∈ okids f → db.objs.get b = some y → y.subid ≠ id.subid := by
  obtain ⟨comps,inst,_⟩ := convert_components place.convert
  have plain : ':' ∉ msg.oid := by
    rw [place.inst] at inst
    simpa using inst.symm
  have lookup := place.father
  rw [comps] at lookup
  obtain ⟨some',fo',found',same⟩ := lookForFather_obj tree lookup
  have equal : fo' = fo := some.inj (found'.symm.trans place.found)
  subst equal
  have last := place.last
  rw [comps,getLast?_cons,List.getLast?_eq_getLast_of_ne_nil some'] at last
  have isLast : (components msg.oid).getLast some' = id := by simpa using last
  have member : id ∈ components msg.oid := isLast ▸ List.getLast_mem some'
  obtain ⟨slash,colon,_⟩ := components_mem member
  have plainF : ':' ∉ fo'.oid := by
    by_cases top : f = cfg_obj_root
    · obtain ⟨r,rootFound,_,_,plain⟩ := tree.root
      have equal : r = fo' := some.inj (rootFound.symm.trans (top ▸ found'))
      exact equal ▸ plain
    · exact (tree.named found' top).2.2.2
  have sameComps : components fo'.oid = (components msg.oid).dropLast :=
    nameless_eq (fun c inside => (components_nameless plainF inside).1)
      (fun c inside => (components_nameless plain (List.dropLast_subset _ inside)).1) same
  obtain ⟨name,nonempty⟩ := components_nameless plain member
  refine ⟨?_,⟨nonempty,slash,colon,plain⟩,?_⟩
  · have whole : (⟨id.subid,[]⟩ : CfgSubid) = id := by rw [← name]
    rw [sameComps,whole,← isLast]
    exact (List.dropLast_append_getLast some').symm
  · intro b y son there equal
    have alone := place.alone
    rw [tree.scan place.found] at alone
    have missed := find?_eq_none.mp (some.inj alone) b son
    simp [testAt,there,objIs,equal] at missed

/-- Linking an object does not touch the instances. -/
theorem linkObject_instTree {table : List (Option Nat)} {new : CfgObject} {f : Nat} (tree : InstTree db kids)
    (young : f < db.objs.size) : InstTree (linkObject db table new f) kids := by
  refine InstTree.agree ?_ (linkObject_agree db table new f)
  refine tree.objects rfl rfl rfl fun {a i o} found object => ?_
  have old := Heap.lt_size object
  simp only [Heap.get_alloc_modify young,if_neg (ne_of_lt old)]
  by_cases atFather : i.obj = f
  · rw [if_pos atFather,← atFather,object]
    exact ⟨_,rfl,rfl,rfl⟩
  · rw [if_neg atFather]
    exact ⟨o,object,rfl,rfl⟩

theorem RegisterPlace.link {oid : CfgOid} {f i : Nat} {fo : CfgObject} {id : CfgSubid} {table : List (Option Nat)}
    (place : RegisterPlace db msg oid f fo id i table) (objTree : ObjTree db okids) (tree : InstTree db kids) :
    ObjTree (linkObject db table (newObject db msg f fo id.subid i) f)
        (update okids f (db.objs.size :: okids f)) ∧
      InstTree (linkObject db table (newObject db msg f fo id.subid i) f) kids := by
  obtain ⟨comps,named,alone⟩ := place.tree objTree
  exact ⟨linkObject_tree objTree place.found place.slot rfl rfl rfl named comps alone,
    linkObject_instTree tree (Heap.lt_size place.found)⟩

/-- The object that a successful registration creates. -/
theorem cfg_process_msg_register_new (registered : cfg_process_msg_register db msg = some (db',none,handle)) :
    ∃ oid f fo id table o, RegisterPlace db msg oid f fo id handle table ∧ CFG_GET_OBJ db' handle = some db.objs.size ∧
      db'.objs.get db.objs.size = some o ∧ core o = core (newObject db msg f fo id.subid handle) ∧
      db'.insts = db.insts ∧ db'.cfg_all_inst = db.cfg_all_inst := by
  generalize status : (none : Rc) = rc at registered
  cases cfg_process_msg_register_cases registered with
  | refused _ failed => exact absurd status.symm failed
  | @linked oid f _ fo id table db2 _ place adopted parent =>
    obtain ⟨db1,kept,adopted',rfl⟩ := maybe_adopt_cases adopted
    obtain ⟨agree1,_⟩ := adopt_agree adopted'
    have agree0 := linkObject_agree db table (newObject db msg f fo id.subid handle) f
    obtain ⟨_,inside,_⟩ := takeSlot_spec (by decide) place.slot
    have agree2 : Agree core {db1 with orphaned_objects := kept} db' := by
      rcases parent with ⟨_,created⟩ | ⟨_,rfl⟩
      · exact create_agree created
      · exact Agree.refl ..
    have young := Heap.lt_size place.found
    obtain ⟨o1,found1,same1⟩ := (agree0.trans agree1).forward (a := db.objs.size)
      (x := newObject db msg f fo id.subid handle) (by simp only [Heap.get_alloc_modify young,if_true])
    obtain ⟨o,found,same⟩ := agree2.forward found1
    refine ⟨oid,f,fo,id,table,o,place,?_,found,same.trans same1,?_,?_⟩
    · have entry : db'.cfg_all_obj = table.set handle (some db.objs.size) :=
        agree2.cfg_all_obj.trans (agree0.trans agree1).cfg_all_obj
      simp [CFG_GET_OBJ,entry,inside]
    · exact agree2.insts.trans (agree0.trans agree1).insts
    · exact agree2.cfg_all_inst.trans (agree0.trans agree1).cfg_all_inst

/-- A registration by itself makes no instances. -/
theorem cfg_process_msg_register_insts (registered : cfg_process_msg_register db msg = some (db',rc,handle)) :
    db'.insts = db.insts := by
  cases cfg_process_msg_register_cases registered with
  | refused => rfl
  | @linked _ f i fo id table db2 _ place adopted parent =>
    obtain ⟨db1,kept,adopted',rfl⟩ := maybe_adopt_cases adopted
    have same : db1.insts = db.insts := (adopt_agree adopted').1.insts.trans (linkObject_agree ..).insts
    rcases parent with ⟨_,created⟩ | ⟨_,rfl⟩
    · exact (create_agree created).insts.trans same
    · exact same

theorem cfg_process_msg_register_trees (objTree : ObjTree db okids) (tree : InstTree db kids)
    (registered : cfg_process_msg_register db msg = some (db',rc,handle)) :
    (∃ okids', ObjTree db' okids') ∧ InstTree db' kids := by
  cases cfg_process_msg_register_cases registered with
  | refused => exact ⟨⟨okids,objTree⟩,tree⟩
  | linked place adopted parent =>
    obtain ⟨objTree1,tree1⟩ := place.link objTree tree
    obtain ⟨objTree2,tree2⟩ := maybe_adopt_trees objTree1 tree1 adopted
    rcases parent with ⟨_,created⟩ | ⟨_,rfl⟩
    · exact ⟨⟨_,objTree2.agree (create_agree created)⟩,tree2.agree (create_agree created)⟩
    · exact ⟨⟨_,objTree2⟩,tree2⟩

variable [Libc]

/-- How `registerRequest` ends: the object is refused, or its type is, or it has no
    automatic instances, or they are added. -/
theorem registerRequest_cases (registered : registerRequest db msg = some (db',rc)) : ∃ db1 rc1 handle,
    cfg_process_msg_register db msg = some (db1,rc1,handle) ∧
      ((rc1 ≠ none ∧ db' = db1 ∧ rc = rc1) ∨
        (rc1 = none ∧ ∃ a obj, CFG_GET_OBJ db1 handle = some a ∧ db1.objs.get a = some obj ∧
          ((obj.access ≠ .read_only ∧ obj.type = .double ∧ db' = db1 ∧ rc = te .EOPNOTSUPP) ∨
            ((obj.access = .read_only ∨ (obj.access = .read_write ∧ obj.type ≠ .double)) ∧
              cfg_add_all_inst_by_obj db1 a = some (db',rc)) ∨
            (obj.access = .read_create ∧ db' = db1 ∧ rc = none)))) := by
  unfold registerRequest at registered
  obtain ⟨⟨db1,rc1,handle⟩,first,registered⟩ := of_bind registered
  refine ⟨db1,rc1,handle,first,?_⟩
  dsimp only at registered
  by_cases failed : rc1 ≠ none
  · grind
  rw [if_neg failed] at registered
  obtain ⟨a,slot,registered⟩ := of_bind registered
  obtain ⟨obj,found,registered⟩ := of_bind registered
  refine .inr ⟨by simpa using failed,a,obj,slot,found,?_⟩
  split at registered
  · grind
  rename_i noDouble
  split at registered
  · grind
  · rename_i onRequest
    obtain ⟨rfl,rfl⟩ := of_pair registered
    refine .inr (.inr ⟨?_,rfl,rfl⟩)
    cases access : obj.access <;> simp [access] at onRequest ⊢

/-- Behind the registration of the object, instances are added or nothing is. -/
theorem registerRequest_extends (objTree : ObjTree db okids) (tree : InstTree db kids) (registered : registerRequest db msg = some (db',rc)) :
    ∃ db1 rc1 handle, cfg_process_msg_register db msg = some (db1,rc1,handle) ∧ (∃ okids', ObjTree db1 okids') ∧ Ext db1 db' ∧
      ∃ kids', InstTree db' kids' := by
  obtain ⟨db1,rc1,handle,first,rest⟩ := registerRequest_cases registered
  obtain ⟨⟨okids1,objTree1⟩,tree1⟩ := cfg_process_msg_register_trees objTree tree first
  refine ⟨db1,rc1,handle,first,⟨okids1,objTree1⟩,?_⟩
  rcases rest with ⟨_,rfl,_⟩ | ⟨isNew,a,obj,slot,found,⟨_,_,rfl,_⟩ | ⟨_,added⟩ | ⟨_,rfl,_⟩⟩
  · exact ⟨.refl _,kids,tree1⟩
  · exact ⟨.refl _,kids,tree1⟩
  · obtain ⟨_,f,_,_,_,o,_,slot',found',same,_⟩ := cfg_process_msg_register_new (isNew ▸ first)
    have here : a = db.objs.size := some.inj (slot.symm.trans slot')
    obtain ⟨tree2,ext,_⟩ := addAllFrom_spec objTree1 tree1 (here ▸ found') (core_father same) added
    exact ⟨ext,tree2⟩
  · exact ⟨.refl _,kids,tree1⟩
theorem registerRequest_trees (trees : Trees db) (registered : registerRequest db msg = some (db',rc)) : Trees db' := by
  obtain ⟨okids,kids,objTree,tree⟩ := trees
  obtain ⟨db1,_,_,first,⟨okids1,objTree1⟩,ext,kids2,tree2⟩ := registerRequest_extends objTree tree registered
  exact ⟨okids1,kids2,objTree1.of_same ext.objs ext.cfg_all_obj,tree2⟩
end

section
variable {db db' : Db} {okids kids : Nat → List Nat} {id : CStr} {rc : Rc}

/-- `forget_master` and `forget_dependant`, each on its list of an object. -/
theorem forget_cases {field : CfgObject → List CfgDependency} {set : List CfgDependency → Db} {a obj : Nat}
    (forgot : ((db.objs.get a).bind fun x => (forget obj (field x)).bind fun rest => some (set rest)) = some db') :
    ∃ x l, db.objs.get a = some x ∧ forget obj (field x) = some l ∧ db' = set l := by
  obtain ⟨x,found,forgot⟩ := of_bind forgot
  obtain ⟨l,gone,forgot⟩ := of_bind forgot
  exact ⟨x,l,found,gone,(some.inj forgot).symm⟩
variable {l : List CfgDependency}

theorem forget_masters_agree {obj : Nat}
    (forgot : l.foldlM (fun db d => forget_master db d.depends obj) db = some db') : Agree core db db' := by
  refine foldlM_keeps (Agree.refl _) Agree.trans (fun _ _ _ _ step => ?_) forgot
  obtain ⟨_,_,-,-,rfl⟩ := forget_cases step
  exact setDependsOn_agree ..
theorem forget_dependants_agree {obj : Nat}
    (forgot : l.foldlM (fun db d => forget_dependant db d.depends obj) db = some db') : Agree core db db' := by
  refine foldlM_keeps (Agree.refl _) Agree.trans (fun _ _ _ _ step => ?_) forgot
  obtain ⟨_,_,-,-,rfl⟩ := forget_cases step
  exact setDependants_agree ..
theorem unlinkTree_insts {father obj : Nat} {o : CfgObject} (unlinked : unlinkTree db father obj o = some db') :
    db'.insts = db.insts := by
  unfold unlinkTree at unlinked
  obtain ⟨f,_,unlinked⟩ := of_bind unlinked
  split at unlinked
  · cases unlinked; rfl
  · obtain ⟨_,_,unlinked⟩ := of_bind unlinked
    obtain ⟨_,_,unlinked⟩ := of_bind unlinked
    cases unlinked; rfl
theorem unlinkOrder_agree (db : Db) (o : CfgObject) : Agree unordered db (unlinkOrder db o) :=
  (linkNext_agree ..).trans (linkPrev_agree ..)

/-- The object that an unregistration is about: a leaf, with its father. -/
structure UnregisterPlace (db : Db) (id : CStr) (obj : Nat) (o : CfgObject) (f : Nat) : Prop where
  lookup : cfg_get_obj_by_obj_id_str db id = some (some obj)
  found : db.objs.get obj = some o
  leaf : o.son = none
  up : o.father = some f

/-- How `cfg_db_unregister_obj_by_id_str` ends. The object is refused, or the
    search for its instances fails, or it is gone. -/
inductive UnregisterResult (db : Db) (id : CStr) : Db → Rc → Prop
  | refused (rc : Rc) (failed : rc ≠ none) : UnregisterResult db id db rc
  | pattern {obj f : Nat} {o : CfgObject} {db1 : Db} {oid : CfgOid} {err : TeErrno} (place : UnregisterPlace db id obj o f)
      (forgot : o.dependants.foldlM (fun db d => forget_master db d.depends obj) db = some db1)
      (convert : cfg_convert_oid_str id = some oid)
      (failed : cfg_db_find_pattern db1 (instPattern oid.ids.tail) = some (.error err)) :
      UnregisterResult db id db1 (some err)
  | gone {obj f : Nat} {o o2 o3 : CfgObject} {db1 db2 db3 db4 : Db} {oid : CfgOid} {handles : List Nat}
      (place : UnregisterPlace db id obj o f)
      (forgot : o.dependants.foldlM (fun db d => forget_master db d.depends obj) db = some db1)
      (convert : cfg_convert_oid_str id = some oid)
      (matched : cfg_db_find_pattern db1 (instPattern oid.ids.tail) = some (.ok handles))
      (deleted : deleteMatches db1 handles = some db2) (found2 : db2.objs.get obj = some o2)
      (forgot2 : o2.depends_on.foldlM (fun db d => forget_dependant db d.depends obj) db2 = some db3)
      (found3 : db3.objs.get obj = some o3) (unlinked : unlinkTree (unlinkOrder db3 o3) f obj o3 = some db4)
      (own : CFG_OBJ_HANDLE_NUM_RSRVD ≤ obj) : UnregisterResult db id
        {db4 with cfg_all_obj := db4.cfg_all_obj.set o3.handle none,objs := db4.objs.free obj} none

theorem cfg_db_unregister_cases (gone : cfg_db_unregister_obj_by_id_str db id = some (db',rc)) :
    UnregisterResult db id db' rc := by
  unfold cfg_db_unregister_obj_by_id_str at gone
  have refuse : ∀ {rc0 : Rc}, rc0 ≠ none → some (db,rc0) = some (db',rc) → UnregisterResult db id db' rc := by
    rintro rc0 failed ⟨⟩
    exact .refused _ failed
  obtain ⟨obj,lookup,gone⟩ := of_bind gone
  cases obj with
  | none => exact refuse (by simp) gone
  | some obj =>
    obtain ⟨o,found,gone⟩ := of_bind gone
    by_cases leaf : o.son = none
    · simp only [leaf] at gone
      rw [if_neg (by simp)] at gone
      cases up : o.father with
      | none =>
        simp only [up] at gone
        exact refuse (by simp) gone
      | some f =>
        simp only [up] at gone
        unfold unregisterObj at gone
        obtain ⟨db1,forgot,gone⟩ := of_bind gone
        obtain ⟨oid,convert,gone⟩ := of_bind gone
        obtain ⟨found',matched,gone⟩ := of_bind gone
        have place : UnregisterPlace db id obj o f := ⟨lookup,found,leaf,up⟩
        cases found' with
        | error err =>
          cases gone
          exact .pattern place forgot convert matched
        | ok handles =>
          obtain ⟨db2,deleted,gone⟩ := of_bind gone
          obtain ⟨o2,found2,gone⟩ := of_bind gone
          obtain ⟨db3,forgot2,gone⟩ := of_bind gone
          obtain ⟨o3,found3,gone⟩ := of_bind gone
          obtain ⟨db4,unlinked,gone⟩ := of_bind gone
          split at gone
          · cases gone
          · rename_i own
            cases gone
            exact .gone place forgot convert matched deleted found2 forgot2 found3 unlinked (not_lt.mp own)
    · rw [if_pos leaf] at gone
      exact refuse (by simp) gone

theorem UnregisterPlace.plain {obj f : Nat} {o : CfgObject} {oid : CfgOid} (place : UnregisterPlace db id obj o f)
    (convert : cfg_convert_oid_str id = some oid) : oid.inst = false := by
  have lookup := place.lookup
  simp only [cfg_get_obj_by_obj_id_str,convert] at lookup
  split at lookup
  · simp at lookup
  · rename_i notInst
    simpa using notInst
theorem UnregisterPlace.oid {obj f : Nat} {o : CfgObject} {oid : CfgOid} (place : UnregisterPlace db id obj o f)
    (convert : cfg_convert_oid_str id = some oid) (tree : ObjTree db okids) :
    oid.ids.tail = components id ∧ subids o.oid = (components id).map CfgSubid.subid := by
  obtain ⟨comps,_⟩ := convert_components convert
  have lookup := place.lookup
  simp only [cfg_get_obj_by_obj_id_str,convert] at lookup
  split at lookup
  · simp at lookup
  · obtain ⟨r,down,spec⟩ := descendObj_root tree (components id)
    rw [comps,down] at lookup
    obtain ⟨o',found',same⟩ := spec obj (some.inj lookup)
    have equal : o' = o := some.inj (found'.symm.trans place.found)
    exact ⟨by rw [comps]; rfl,equal ▸ same⟩

/-- Once the instances found by its pattern are deleted, an object has none. -/
theorem no_instance_left {obj f : Nat} {o : CfgObject} {db1 db2 : Db} {oid : CfgOid} {handles : List Nat}
    (objTree : ObjTree db okids) (tree : InstTree db kids) (place : UnregisterPlace db id obj o f)
    (forgot : o.dependants.foldlM (fun db d => forget_master db d.depends obj) db = some db1)
    (convert : cfg_convert_oid_str id = some oid)
    (matched : cfg_db_find_pattern db1 (instPattern oid.ids.tail) = some (.ok handles))
    (deleted : deleteMatches db1 handles = some db2) :
    ∃ dead kids2, Pruned db1 db2 dead ∧ InstTree db2 kids2 ∧
      (∀ {b x}, db1.insts.get b = some x → b ≠ cfg_inst_root → x.obj = obj → dead b) ∧
      ∀ {b x}, db2.insts.get b = some x → x.obj ≠ obj := by
  have agree1 := forget_masters_agree forgot
  have objTree1 := objTree.agree agree1
  have tree1 := tree.agree agree1
  obtain ⟨isTail,path⟩ := place.oid convert objTree
  obtain ⟨dead,kids2,pruned,tree2,all⟩ := deleteMatches_tree tree1 deleted
  have dies : ∀ {b x}, db1.insts.get b = some x → b ≠ cfg_inst_root → x.obj = obj → dead b := by
    intro b x there notRoot isObj
    refine all there notRoot (find_instPattern tree1 (fun c member => ?_) matched there notRoot ?_)
    · grind [components_mem]
    · obtain ⟨o1,object,sameSubids⟩ := tree1.object objTree1 there
      obtain ⟨o1',found1,same⟩ := agree1.forward place.found
      have equal : o1' = o1 := some.inj (found1.symm.trans (isObj ▸ object))
      rw [← sameSubids,isTail,← path,← equal,subids,core_oid same]
      rfl
  refine ⟨dead,kids2,pruned,tree2,dies,fun {b x2} there2 isObj => ?_⟩
  obtain ⟨alive,x,there,same,_⟩ := pruned.backward there2
  by_cases top : b = cfg_inst_root
  · obtain ⟨r,rootFound,_,_,rootObj,_⟩ := tree2.root
    have equal : r = x2 := some.inj (rootFound.symm.trans (top ▸ there2))
    rcases objTree.father_of place.found with ⟨_,noFather⟩ | ⟨_,_,_,_,member⟩
    · rw [place.up] at noFather; cases noFather
    · exact objTree.son_not_root member (by rw [← isObj,← equal,rootObj])
  · exact alive (dies there top (by rw [unlinked_obj same]; exact isObj))

theorem unregister_trees (trees : Trees db) (gone : cfg_db_unregister_obj_by_id_str db id = some (db',rc)) :
    Trees db' := by
  obtain ⟨okids,kids,objTree,tree⟩ := trees
  cases cfg_db_unregister_cases gone with
  | refused => exact ⟨okids,kids,objTree,tree⟩
  | pattern _ forgot =>
    have agree := forget_masters_agree forgot
    exact ⟨okids,kids,objTree.agree agree,tree.agree agree⟩
  | @gone obj f o o2 o3 db1 db2 db3 db4 oid handles place forgot convert matched deleted found2 forgot2 found3 unlinked =>
    obtain ⟨dead,kids2,pruned,tree2,_,none'⟩ := no_instance_left objTree tree place forgot convert matched deleted
    have agree1 := forget_masters_agree forgot
    have agree3 := (forget_dependants_agree forgot2).trans (unlinkOrder_agree db3 o3).unnumbered_of.core_of
    have objTree5 := ((objTree.agree agree1).of_same pruned.objs pruned.cfg_all_obj).agree agree3
    have tree5 := tree2.agree agree3
    obtain ⟨o5,found5,same5⟩ := (unlinkOrder_agree db3 o3).unnumbered_of.core_of.forward found3
    have leaf : okids obj = [] := by
      have son := objTree.forest.son_eq (objLinks_eq place.found)
      rw [place.leaf] at son
      exact List.head?_eq_none_iff.mp son.symm
    rcases objTree.father_of place.found with ⟨_,noFather⟩ | ⟨f',_,up,_,member⟩
    · rw [place.up] at noFather; cases noFather
    · have equal : f' = f := some.inj (up.symm.trans place.up)
      subst equal
      obtain ⟨pre,post,split⟩ := append_of_mem member
      rw [unlinkTree_eq objTree5 split] at unlinked
      cases unlinked
      have brother : o3.brother = o5.brother := congrArg Links.brother (core_links same5.symm)
      have handle : o3.handle = o5.handle := core_handle same5.symm
      rw [brother,handle]
      have objTree6 := eraseObject_tree objTree5 split leaf found5
      refine ⟨_,kids2,objTree6,tree5.objects rfl rfl rfl fun {a i q} there object => ?_⟩
      have other : i.obj ≠ obj := none' (by rw [← agree3.insts]; exact there)
      simp only [Db.setObj,Heap.get_free,Heap.get_modify,if_neg other]
      by_cases atLink : i.obj = pre.getLast?.getD f'
      · grind
      · rw [if_neg atLink]
        exact ⟨q,object,rfl,rfl⟩
end

section
variable [Libc] {db db' : Db} {okids kids : Nat → List Nat} {rc : Rc}

theorem cfg_db_find_trees {oid : CStr} {handle : Nat} (objTree : ObjTree db okids) (tree : InstTree db kids)
    (found : cfg_db_find db oid = some (db',rc,handle)) : (∃ kids', InstTree db' kids') ∧ Ext db db' := by
  cases cfg_db_find_cases found with
  | failed | inst | obj => exact ⟨⟨kids,tree⟩,Ext.refl _⟩
  | added _ _ added =>
    obtain ⟨tree',ext,_⟩ := cfg_db_add_spec objTree tree added
    exact ⟨tree',ext⟩

/-- How `cfg_process_msg_add_dependency` ends. -/
inductive AddDependencyResult (db : Db) (msg : CfgAddDependencyMsg) : Db → Rc → Prop
  | refused (rc : Rc) (failed : rc ≠ none) : AddDependencyResult db msg db rc
  | orphan {obj handle : Nat} {db1 : Db} {rc : Rc} (object : CFG_GET_OBJ db msg.handle = some obj)
      (missing : cfg_db_find db msg.oid = some (db1,rc,handle)) (failed : rc ≠ none) :
      AddDependencyResult db msg {db1 with orphaned_objects :=
        ⟨obj,cfg_convert_oid_str msg.oid,msg.object_wide⟩ :: db1.orphaned_objects} none
  | created {obj master handle : Nat} {db1 db' : Db} (object : CFG_GET_OBJ db msg.handle = some obj)
      (found : cfg_db_find db msg.oid = some (db1,none,handle)) (there : CFG_GET_OBJ db1 handle = some master)
      (created : cfg_create_dep db1 master obj msg.object_wide = some db') : AddDependencyResult db msg db' none

theorem add_dependency_cases {msg : CfgAddDependencyMsg} (added : cfg_process_msg_add_dependency db msg = some (db',rc)) :
    AddDependencyResult db msg db' rc := by
  unfold cfg_process_msg_add_dependency at added
  split at added
  · cases added
    exact .refused _ (by simp)
  cases object : CFG_GET_OBJ db msg.handle with
  | none =>
    simp only [object] at added
    cases added
    exact .refused _ (by simp)
  | some obj =>
    simp only [object] at added
    obtain ⟨⟨db1,rc1,handle⟩,found,added⟩ := of_bind added
    dsimp only at added
    by_cases missing : rc1 ≠ none
    · rw [if_pos missing] at added
      cases added
      exact .orphan object found missing
    · rw [if_neg missing] at added
      obtain ⟨master,there,added⟩ := of_bind added
      obtain ⟨db2,created,added⟩ := of_bind added
      cases added
      have same : rc1 = none := by simpa using missing
      exact .created object (same ▸ found) there created

theorem add_dependency_trees {msg : CfgAddDependencyMsg} (trees : Trees db)
    (added : cfg_process_msg_add_dependency db msg = some (db',rc)) : Trees db' := by
  obtain ⟨okids,kids,objTree,tree⟩ := trees
  cases add_dependency_cases added with
  | refused => exact ⟨okids,kids,objTree,tree⟩
  | orphan _ missing =>
    obtain ⟨⟨kids1,tree1⟩,ext⟩ := cfg_db_find_trees objTree tree missing
    exact ⟨okids,kids1,objTree.of_same ext.objs ext.cfg_all_obj,
      tree1.objects rfl rfl rfl fun _ object => ⟨_,object,rfl,rfl⟩⟩
  | created _ found _ created =>
    obtain ⟨⟨kids1,tree1⟩,ext⟩ := cfg_db_find_trees objTree tree found
    have agree := create_agree created
    exact ⟨okids,kids1,(objTree.of_same ext.objs ext.cfg_all_obj).agree agree,tree1.agree agree⟩

variable {g : CfgInstance → CfgInstance} {val : CfgInstVal}

omit [Libc] in
theorem flagInst_trees {handle : Nat} (same : ∀ x, spine (g x) = spine x) (trees : Trees db)
    (flagged : flagInst db handle g = some db') : Trees db' := by
  obtain ⟨okids,kids,objTree,tree⟩ := trees
  unfold flagInst at flagged
  obtain ⟨inst,got,flagged⟩ := of_bind flagged
  cases inst with
  | none => cases flagged
  | some a =>
    cases flagged
    exact ⟨okids,kids,objTree.of_same rfl rfl,tree.setInst same (.inl (tree.get_inst got).1)⟩

omit [Libc] in
theorem flagInst_size {handle : Nat} (flagged : flagInst db handle g = some db') : db'.insts.size = db.insts.size := by
  unfold flagInst at flagged
  obtain ⟨inst,_,flagged⟩ := of_bind flagged
  cases inst with
  | none => cases flagged
  | some a => cases flagged; simp [Db.setInst]

omit [Libc] in
theorem flagInst_objs {handle : Nat} (flagged : flagInst db handle g = some db') :
    db'.objs = db.objs ∧ db'.orphaned_objects = db.orphaned_objects ∧ db'.topological_order = db.topological_order := by
  unfold flagInst at flagged
  obtain ⟨inst,_,flagged⟩ := of_bind flagged
  cases inst with
  | none => cases flagged
  | some a => cases flagged; exact ⟨rfl,rfl,rfl⟩

omit [Libc] in
theorem cfg_db_set_cases {handle : Nat} (set : cfg_db_set db handle val = some (db',rc)) :
    ∃ a i o, CFG_GET_INST db handle = some (some a) ∧ db.insts.get a = some i ∧ db.objs.get i.obj = some o ∧
      ((o.type ≠ .none ∧ ((∃ err, copy val = .error err ∧ db' = db ∧ rc = te err) ∨
          (db' = db.setInst a (fun x => {x with val := val}) ∧ rc = none))) ∨
        (o.type = .none ∧ db' = db ∧ rc = none)) := by
  unfold cfg_db_set at set
  obtain ⟨inst,got,set⟩ := of_bind set
  cases inst with
  | none => cases set
  | some a =>
    simp only [bind_eq_bind,bind_some] at set
    obtain ⟨i,found,set⟩ := of_bind set
    obtain ⟨o,object,set⟩ := of_bind set
    refine ⟨a,i,o,got,found,object,?_⟩
    by_cases valued : o.type ≠ .none
    · rw [if_pos valued] at set
      refine .inl ⟨valued,?_⟩
      cases copied : copy val with
      | error err => grind
      | ok val0 =>
        have same := copy_ok copied
        subst same
        simp only [copied,some_inj,Prod.mk.injEq] at set
        exact .inr ⟨set.1.symm,set.2.symm⟩
    · rw [if_neg valued] at set
      simp only [some_inj,Prod.mk.injEq] at set
      exact .inr ⟨by simpa using valued,set.1.symm,set.2.symm⟩
omit [Libc] in
theorem cfg_db_set_trees {handle : Nat} (trees : Trees db) (set : cfg_db_set db handle val = some (db',rc)) : Trees db' := by
  obtain ⟨a,i,o,got,_,_,⟨_,⟨_,_,rfl,_⟩ | ⟨rfl,_⟩⟩ | ⟨_,rfl,_⟩⟩ := cfg_db_set_cases set
  · exact trees
  · obtain ⟨okids,kids,objTree,tree⟩ := trees
    exact ⟨okids,kids,objTree.of_same rfl rfl,tree.setInst (fun _ => rfl) (.inl (tree.get_inst got).1)⟩
  · exact trees

/-- Every operation keeps the trees. -/
theorem dbStep_trees {op : DbOp} (trees : Trees db) (step : dbStep db op = some (db',rc)) : Trees db' := by
  cases op with
  | register msg => exact registerRequest_trees trees step
  | unregister id => exact unregister_trees trees step
  | add_dependency msg => exact add_dependency_trees trees step
  | add oid type val =>
    obtain ⟨⟨db1,rc1,handle⟩,added,same⟩ := of_map step
    cases same
    obtain ⟨okids,kids,objTree,tree⟩ := trees
    obtain ⟨⟨kids',tree'⟩,ext,_⟩ := cfg_db_add_spec objTree tree added
    exact ⟨okids,kids',objTree.of_same ext.objs ext.cfg_all_obj,tree'⟩
  | find oid =>
    obtain ⟨⟨db1,rc1,handle⟩,found,same⟩ := of_map step
    cases same
    obtain ⟨okids,kids,objTree,tree⟩ := trees
    obtain ⟨⟨kids',tree'⟩,ext⟩ := cfg_db_find_trees objTree tree found
    exact ⟨okids,kids',objTree.of_same ext.objs ext.cfg_all_obj,tree'⟩
  | set handle val => exact cfg_db_set_trees trees step
  | del handle =>
    obtain ⟨db1,deleted,same⟩ := of_map step
    cases same
    obtain ⟨okids,kids,objTree,tree⟩ := trees
    obtain ⟨_,_,kids',_,_,_,_,pruned,tree'⟩ := cfg_db_del_tree tree deleted
    exact ⟨okids,kids',objTree.of_same pruned.objs pruned.cfg_all_obj,tree'⟩
  | added handle | remove handle remove =>
    obtain ⟨db1,flagged,same⟩ := of_map step
    cases same
    refine flagInst_trees ?_ trees flagged
    exact fun _ => rfl
end
end TestEnvironment.Configurator
