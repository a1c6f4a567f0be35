import TestEnvironment.Configurator.Init

/-!
Instances, their table and their handles in every reachable database: the
occupied slots and the paths of links lead to the same instances, a handle
leads to the entity it was given out for, and the handle of a deleted instance
to none. The root instance is the exception: the index in its handle is not the
slot it has.
-/
namespace TestEnvironment.Configurator
open Lib
open Forest (follow)

section
variable {db : Db} {okids kids : Nat → List Nat} {a : Nat}

/-- The instance `a` is in the table at the index in its handle. -/
def Tabled (db : Db) (a : Nat) : Prop :=
  ∃ i, db.insts.get a = some i ∧ (db.cfg_all_inst[handleIndex i.handle]?).join = some a
/-- Exactly one path of son and brother links leads from the root to `a`. -/
def OnePath (db : Db) (a : Nat) : Prop := ∃! path, follow (instLinks db) cfg_inst_root path = some a
/-- The elements of an instance OID without their names. -/
def withoutNames (ids : List CfgSubid) : List CfgSubid := ids.map fun c => ⟨c.subid,[]⟩

theorem onePath_iff (tree : InstTree db kids) : OnePath db a ↔ ∃ i, db.insts.get a = some i := by
  unfold OnePath
  rw [tree.forest.unique_path]
  constructor
  · grind [instLinks_some]
  · simp_all [instLinks_eq]
theorem tabled_iff (tree : InstTree db kids) : Tabled db a ↔ a ≠ cfg_inst_root ∧ ∃ i, db.insts.get a = some i := by
  constructor
  · rintro ⟨i,found,slot⟩
    refine ⟨?_,i,found⟩
    rintro rfl
    obtain ⟨r,root,_,_,_,handle,_⟩ := tree.root
    have same : r = i := some.inj (root.symm.trans found)
    rcases tree.slot slot with ⟨_,zero⟩ | ⟨notRoot,_⟩
    · rw [← same,handle] at zero
      simp [handleIndex] at zero
    · exact notRoot rfl
  · rintro ⟨notRoot,i,found⟩
    exact ⟨i,found,(tree.entry found notRoot).2⟩

/-- The links of an instance to its father and to its object. -/
structure LinkedRight (db : Db) (a : Nat) (i : CfgInstance) : Prop where
  father : (a = cfg_inst_root ∧ i.father = none) ∨ ∃ f p, i.father = some f ∧ db.insts.get f = some p ∧
    components i.oid ≠ [] ∧ components p.oid = (components i.oid).dropLast
  obj : ∃ o, db.objs.get i.obj = some o ∧ CFG_GET_OBJ db o.handle = some i.obj ∧
    components o.oid = withoutNames (components i.oid)

theorem ObjTree.plain (tree : ObjTree db okids) {o : CfgObject} (found : db.objs.get a = some o) : ':' ∉ o.oid := by
  by_cases top : a = cfg_obj_root
  · obtain ⟨r,rootFound,_,_,plain⟩ := tree.root
    have same : r = o := some.inj (rootFound.symm.trans (top ▸ found))
    exact same ▸ plain
  · exact (tree.named found top).2.2.2
theorem linked_right (objTree : ObjTree db okids) (tree : InstTree db kids) {i : CfgInstance}
    (found : db.insts.get a = some i) : LinkedRight db a i := by
  constructor
  · rcases tree.father_of found with top | ⟨f,p,up,father,_⟩
    · exact .inl top
    · obtain ⟨o,_,_,comps⟩ := tree.path found up father
      exact .inr ⟨f,p,up,father,by simp [comps],by simp [comps]⟩
  · obtain ⟨o,object,same⟩ := tree.object objTree found
    refine ⟨o,object,(objTree.entry object).2,nameless_eq (fun c member => ?_) (fun c member => ?_) ?_⟩
    · exact (components_nameless (objTree.plain object) member).1
    · obtain ⟨d,_,rfl⟩ := mem_map.mp member; rfl
    · rw [withoutNames,map_map]
      exact same

variable [Libc]

/-- In every reachable database the instances in the table are those on exactly one
    path from the root, but for the root itself. -/
theorem instance_tree_table (reached : DbReach anyStep db) (a : Nat) :
    ((Tabled db a ↔ OnePath db a) ↔ a ≠ cfg_inst_root) ∧
      ∀ i, OnePath db a → db.insts.get a = some i → LinkedRight db a i := by
  obtain ⟨okids,kids,objTree,tree⟩ := reached.trees
  refine ⟨?_,fun i _ found => linked_right objTree tree found⟩
  rw [tabled_iff tree,onePath_iff tree]
  constructor
  · rintro same rfl
    obtain ⟨r,root,_⟩ := tree.root
    exact (same.mpr ⟨r,root⟩).1 rfl
  · exact fun notRoot => ⟨And.right,fun live => ⟨notRoot,live⟩⟩
omit [Libc] in
/-- An instance, its automatic child, and the root. -/
theorem instance_tree_table_children : ∃ db,
    plainRun [plainRegister "/a" .none .read_create,plainAdd "/a:1",plainRegister "/a/b" .int32 .read_write] = some db ∧
      ∀ a, ((Tabled db a ↔ OnePath db a) ↔ a ≠ cfg_inst_root) ∧
        ∀ i, OnePath db a → db.insts.get a = some i → LinkedRight db a i := by
  obtain ⟨db,run⟩ := isSome_iff_exists.mp (by decide +kernel : (plainRun
    [plainRegister "/a" .none .read_create,plainAdd "/a:1",plainRegister "/a/b" .int32 .read_write]).isSome)
  exact ⟨db,run,@instance_tree_table db plainLibc (plainRun_reach run)⟩
omit [Libc] in
/-- The root is on a path and in the table, but not in the slot that its handle encodes. -/
theorem root_not_tabled : ¬ ∀ db, @DbReach plainLibc anyStep db → ∀ a, Tabled db a ↔ OnePath db a := by
  intro all
  have reached : @DbReach plainLibc anyStep startDb := @startDb_reach plainLibc _
  obtain ⟨_,kids,_,tree⟩ := @DbReach.trees plainLibc _ _ reached
  obtain ⟨r,root,_⟩ := tree.root
  have tabled := (all startDb reached cfg_inst_root).mpr ((onePath_iff tree).mpr ⟨r,root⟩)
  exact ((tabled_iff tree).mp tabled).1 rfl
end

section
variable [Libc] {db db' : Db} {okids kids : Nat → List Nat} {a handle : Nat} {oid : CStr}

/-- Two spellings of one OID: they have the same elements; additional slashes make none. -/
def SameOid (s t : CStr) : Prop := components s = components t
/-- Looking up the handle gives the entity with the OID, of the kind the handle shows. -/
def HandleLaw (db : Db) (oid : CStr) (handle : Nat) : Prop :=
  (CFG_IS_INST handle = true ↔ ':' ∈ oid) ∧
    if ':' ∈ oid then ∃ a i, CFG_GET_INST db handle = some (some a) ∧ db.insts.get a = some i ∧ SameOid i.oid oid
    else ∃ a o, CFG_GET_OBJ db handle = some a ∧ db.objs.get a = some o ∧ SameOid o.oid oid

omit [Libc] in
/-- While the table has fewer than 2^32 slots, the handle of an instance leads to it. -/
theorem get_inst_handle (tree : InstTree db kids) {i : CfgInstance} (found : db.insts.get a = some i)
    (notRoot : a ≠ cfg_inst_root) (room : db.cfg_all_inst.length ≠ 2^32) :
    CFG_IS_INST i.handle = true ∧ CFG_GET_INST db i.handle = some (some a) := by
  obtain ⟨bound,slot⟩ := tree.entry found notRoot
  obtain ⟨positive,small,_⟩ := tree.number found notRoot
  obtain ⟨_,most⟩ := tree.chunks
  have index : handleIndex i.handle = i.handle%2^32 := rfl
  refine ⟨?_,?_⟩
  · simp only [CFG_IS_INST,decide_eq_true_eq]
    omega
  · unfold CFG_GET_INST
    rw [if_neg (by unfold CFG_HANDLE_INVALID; omega),if_neg (by omega)]
    simp only [slot,found,bind_some,if_true]
omit [Libc] in
/-- With 2^32 slots the size of the table is cut down to zero. -/
theorem get_inst_full (full : db.cfg_all_inst.length = 2^32) : CFG_GET_INST db handle = some none := by simp [full,CFG_GET_INST]

/-- What a successful `cfg_db_find` has found. -/
theorem cfg_db_find_found (objTree : ObjTree db okids) (tree : InstTree db kids)
    (found : cfg_db_find db oid = some (db',none,handle)) :
    (∃ kids', InstTree db' kids') ∧ ObjTree db' okids ∧
      ((':' ∈ oid ∧ ∃ a i, db'.insts.get a = some i ∧ i.handle = handle ∧ SameOid i.oid oid) ∨
        (':' ∉ oid ∧ ∃ a o, db'.objs.get a = some o ∧ o.handle = handle ∧ SameOid o.oid oid)) := by
  generalize status : (none : Rc) = rc at found
  cases cfg_db_find_cases found with
  | failed _ failed => exact absurd status.symm failed
  | @inst cfgOid a i convert inst descend there =>
    obtain ⟨comps,isInst,_⟩ := convert_components convert
    rw [inst] at isInst
    have inOid : ':' ∈ oid := by simpa using isInst.symm
    obtain ⟨r,down,spec⟩ := descendInst_root objTree tree (components oid)
    rw [comps,down] at descend
    obtain ⟨x,found',_,same⟩ := spec a (some.inj descend)
    have equal : x = i := some.inj (found'.symm.trans there)
    subst equal
    exact ⟨⟨kids,tree⟩,objTree,.inl ⟨inOid,a,x,there,rfl,same⟩⟩
  | @obj cfgOid a o convert inst descend there =>
    obtain ⟨comps,isInst,_⟩ := convert_components convert
    rw [inst] at isInst
    have plain : ':' ∉ oid := by simpa using isInst.symm
    obtain ⟨r,down,spec⟩ := descendObj_root objTree (components oid)
    rw [comps,down] at descend
    obtain ⟨x,found',same⟩ := spec a (some.inj descend)
    have equal : x = o := some.inj (found'.symm.trans there)
    subst equal
    have plainO := objTree.plain there
    refine ⟨⟨kids,tree⟩,objTree,.inr ⟨plain,a,x,there,rfl,?_⟩⟩
    exact nameless_eq (fun c member => (components_nameless plainO member).1)
      (fun c member => (components_nameless plain member).1) same
  | @added cfgOid _ _ _ convert inst added =>
    obtain ⟨_,isInst,_⟩ := convert_components convert
    rw [inst] at isInst
    obtain ⟨tree',ext,_,new⟩ := cfg_db_add_spec objTree tree added
    obtain ⟨a,x,_,there,same,isOid⟩ := new status.symm
    exact ⟨tree',objTree.of_same ext.objs ext.cfg_all_obj,
      .inl ⟨by simpa using isInst.symm,a,x,there,same,by rw [SameOid,isOid]⟩⟩

omit [Libc] in
/-- An instance OID with an element is not the one of the root, and the other way round. -/
theorem root_iff (tree : InstTree db kids) {i : CfgInstance} (found : db.insts.get a = some i) :
    a = cfg_inst_root ↔ components i.oid = [] := by
  constructor
  · rintro rfl
    obtain ⟨r,root,isOid,_⟩ := tree.root
    have same : r = i := some.inj (root.symm.trans found)
    rw [← same,isOid]; rfl
  · intro empty
    rcases tree.father_of found with ⟨top,_⟩ | ⟨f,p,up,father,_⟩
    · exact top
    · obtain ⟨o,_,_,comps⟩ := tree.path found up father
      simp [empty] at comps

/-- Created instances keep their addresses, so these do not get fewer. -/
theorem dbStep_size {op : DbOp} {rc : Rc} (trees : Trees db) (step : dbStep db op = some (db',rc)) :
    db.insts.size ≤ db'.insts.size := by
  obtain ⟨okids,kids,objTree,tree⟩ := trees
  cases op with
  | register msg =>
    obtain ⟨db1,_,_,first,_,ext,_⟩ := registerRequest_extends objTree tree step
    have same1 : db1.insts = db.insts := cfg_process_msg_register_insts first
    rw [← same1]; exact ext.size
  | unregister id =>
    cases cfg_db_unregister_cases step with
    | refused => exact le_rfl
    | pattern _ forgot => rw [(forget_masters_agree forgot).insts]
    | @gone obj f o o2 o3 db1 db2 db3 db4 oid handles place forgot convert matched deleted found2 forgot2 found3
        unlinked own =>
      obtain ⟨dead,kids2,pruned,_⟩ := no_instance_left objTree tree place forgot convert matched deleted
      have kept : db4.insts = db3.insts := (unlinkTree_insts unlinked).trans (unlinkOrder_agree db3 o3).insts
      change db.insts.size ≤ db4.insts.size
      rw [kept,(forget_dependants_agree forgot2).insts,pruned.size,(forget_masters_agree forgot).insts]
  | add_dependency msg =>
    cases add_dependency_cases step with
    | refused => exact le_rfl
    | orphan _ missing => exact (cfg_db_find_trees objTree tree missing).2.size
    | created _ found _ created =>
      rw [(create_agree created).insts]
      exact (cfg_db_find_trees objTree tree found).2.size
  | add oid type val =>
    obtain ⟨⟨db1,rc1,handle⟩,added,same⟩ := of_map step
    cases same
    exact (cfg_db_add_spec objTree tree added).2.1.size
  | find oid =>
    obtain ⟨⟨db1,rc1,handle⟩,found,same⟩ := of_map step
    cases same
    exact (cfg_db_find_trees objTree tree found).2.size
  | set handle val =>
    obtain ⟨a,i,o,_,_,_,⟨_,⟨_,_,rfl,_⟩ | ⟨rfl,_⟩⟩ | ⟨_,rfl,_⟩⟩ := cfg_db_set_cases step
    · exact le_rfl
    · simp [Db.setInst]
    · exact le_rfl
  | del handle =>
    obtain ⟨db1,deleted,same⟩ := of_map step
    cases same
    obtain ⟨_,_,_,_,_,_,_,pruned,_⟩ := cfg_db_del_tree tree deleted
    rw [pruned.size]
  | added handle | remove handle remove =>
    obtain ⟨db1,flagged,same⟩ := of_map step
    cases same
    rw [flagInst_size flagged]

/-- A run of operations from one database to another. -/
def DbRuns : Db → Db → Prop := Relation.ReflTransGen fun db db' => ∃ op rc, dbStep db op = some (db',rc)

theorem dbRuns_size (trees : Trees db) (runs : DbRuns db db') : Trees db' ∧ db.insts.size ≤ db'.insts.size := by
  induction runs with
  | refl => exact ⟨trees,le_rfl⟩
  | tail _ step ih =>
    obtain ⟨op,rc,step⟩ := step
    exact ⟨dbStep_trees ih.1 step,le_trans ih.2 (dbStep_size ih.1 step)⟩

/-- The law of handles holds for objects, and for instances other than the root
    while the table has fewer than 2^32 slots; the handle of a deleted instance
    leads nowhere while fewer than 2^32 instances were created. -/
theorem handles_identify (reached : DbReach anyStep db) :
    (∀ oid db' handle, cfg_db_find db oid = some (db',none,handle) →
      (HandleLaw db' oid handle ↔ ':' ∉ oid ∨ (components oid ≠ [] ∧ db'.cfg_all_inst.length ≠ 2^32))) ∧
    ∀ a i db', db.insts.get a = some i → DbRuns db db' → db'.insts.get a = none → db'.insts.size-1 < 2^32 →
      ∀ b, CFG_GET_INST db' i.handle ≠ some (some b) := by
  obtain ⟨okids,kids,objTree,tree⟩ := reached.trees
  constructor
  · intro oid db' handle found
    obtain ⟨⟨kids',tree'⟩,objTree',⟨colon,a,i,there,rfl,same⟩ | ⟨plain,a,o,there,rfl,same⟩⟩ :=
      cfg_db_find_found objTree tree found
    · have root := root_iff tree' there
      rw [show components i.oid = components oid from same] at root
      simp only [HandleLaw,colon,if_true,iff_true,not_true,false_or]
      constructor
      · rintro ⟨isInst,b,j,got,_,_⟩
        refine ⟨fun empty => ?_,fun full => ?_⟩
        · have top := root.mpr empty
          subst top
          obtain ⟨r,rootFound,_,_,_,rootHandle,_⟩ := tree'.root
          have equal : r = i := some.inj (rootFound.symm.trans there)
          rw [← equal,rootHandle] at isInst
          simp [CFG_IS_INST] at isInst
        · rw [get_inst_full full] at got
          cases got
      · rintro ⟨some',room⟩
        obtain ⟨isInst,got⟩ := get_inst_handle tree' there (fun top => some' (root.mp top)) room
        exact ⟨isInst,a,i,got,there,same⟩
    · obtain ⟨small,got⟩ := objTree'.entry there
      have notInst : CFG_IS_INST o.handle = false := by
        simp only [CFG_IS_INST,decide_eq_false_iff_not,not_not]
        omega
      simp only [HandleLaw,plain,if_false,notInst]
      simp only [not_false_iff,true_or,iff_true,false_eq_true,true_and]
      exact ⟨a,o,got,there,same⟩
  · intro a i db' found runs gone few b got
    obtain ⟨⟨_,kids',_,tree'⟩,grows⟩ := dbRuns_size reached.trees runs
    obtain ⟨notRoot,_,j,there,same⟩ := tree'.get_inst got
    have old := Heap.lt_size found
    have new := Heap.lt_size there
    by_cases top : a = cfg_inst_root
    · obtain ⟨r,root,_⟩ := tree'.root
      rw [top,root] at gone; cases gone
    · have numberA := (tree.number found top).2.2 (by omega)
      have numberB := (tree'.number there notRoot).2.2 (by omega)
      rw [same,numberA] at numberB
      rw [← numberB,gone] at there; cases there
omit [Libc] in
/-- The law for an instance that was added. -/
theorem handles_identify_added : ∃ db db' handle,
    plainRun [plainRegister "/a" .none .read_create,plainAdd "/a:1"] = some db ∧
      @cfg_db_find plainLibc db "/a:1".toList = some (db',none,handle) ∧
      (HandleLaw db' "/a:1".toList handle ↔ ':' ∉ "/a:1".toList ∨
        (components "/a:1".toList ≠ [] ∧ db'.cfg_all_inst.length ≠ 2^32)) := by
  obtain ⟨db,run⟩ := isSome_iff_exists.mp
    (by decide +kernel : (plainRun [plainRegister "/a" .none .read_create,plainAdd "/a:1"]).isSome)
  obtain ⟨⟨db',handle⟩,found⟩ : ∃ r : Db × Nat, @cfg_db_find plainLibc db "/a:1".toList = some (r.1,none,r.2) := by
    have known : ∀ d, plainRun [plainRegister "/a" .none .read_create,plainAdd "/a:1"] = some d →
        d = (plainRun [plainRegister "/a" .none .read_create,plainAdd "/a:1"]).getD emptyDb := by
      rintro d equal; rw [equal]; rfl
    rw [known db run]
    exact ⟨((plainRun [plainRegister "/a" .none .read_create,plainAdd "/a:1"]).getD emptyDb,2^32+1),by decide +kernel⟩
  exact ⟨db,db',handle,run,found,(@handles_identify plainLibc db (plainRun_reach run)).1 _ _ _ found⟩
omit [Libc] in
/-- The root instance is found, but its handle is the one of no instance. -/
theorem root_handle_unlawful : ¬ ∀ db oid db' handle, @DbReach plainLibc anyStep db →
    @cfg_db_find plainLibc db oid = some (db',none,handle) → HandleLaw db' oid handle := by
  intro law
  have found : @cfg_db_find plainLibc startDb "/:".toList = some (startDb,none,0x10000) := by decide +kernel
  have isInst := (law startDb "/:".toList startDb 0x10000 (@startDb_reach plainLibc _) found).1
  exact absurd (isInst.mpr (by decide)) (by decide)
end
end TestEnvironment.Configurator
