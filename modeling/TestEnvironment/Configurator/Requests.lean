import TestEnvironment.Configurator.Instances

/-!
The remaining operations on the database (`conf_db.c`, `conf_ta.c`,
`conf_main.c`): patterns, unregistration, dependencies between registered
objects, the initial database, and the operations as the steps of a run.
-/
namespace TestEnvironment.Configurator
open Lib

section
/-- The elements of a stored OID match the elements of a pattern. -/
def matchIds (inst : Bool) (pattern ids : List CfgSubid) : Bool :=
  decide (ids.length = pattern.length) &&
    (pattern.zip ids).all fun (p,s) => matchPart p.subid s.subid && (!inst || matchPart p.name s.name)

/-- The loop of `cfg_db_find_pattern`: the handles of the entries that match, in
    the order of the table; nothing if the OID of an entry does not convert. -/
def matchEntries (pattern : Option CfgOid) (inst : Bool) : List (Nat × CStr) → Option (List Nat)
  | [] => some []
  | (handle,oid) :: entries =>
    match pattern with
    | none => (matchEntries pattern inst entries).map (handle :: ·)
    | some p => match cfg_convert_oid_str oid with
      | none => none
      | some o => (matchEntries pattern inst entries).map fun rest =>
        if matchIds inst p.ids o.ids then handle :: rest else rest

/-- The handles and OIDs of the entries of a table. -/
def entriesOf {α : Type} (h : Heap α) (entry : α → Nat × CStr) (table : List (Option Nat)) : Option (List (Nat × CStr)) :=
  (table.filterMap id).mapM fun a => (h.get a).map entry

/-- `cfg_db_find_pattern`. -/
def cfg_db_find_pattern (db : Db) (pattern : CStr) : Option (Except TeErrno (List Nat)) := do
  let instEntries := entriesOf db.insts (fun x => (x.handle,x.oid)) db.cfg_all_inst
  let objEntries := entriesOf db.objs (fun x => (x.handle,x.oid)) db.cfg_all_obj
  let split : Option (Option CfgOid × Bool) :=
    if pattern = "*".toList then some (none,false)
    else if pattern = "*:*".toList then some (none,true)
    else (cfg_convert_oid_str pattern).map fun oid => (some oid,oid.inst)
  match split with
  | none => some (.error ⟨.cs,.EINVAL⟩)
  | some (idsplit,inst) => do
    let entries ← if inst then instEntries else objEntries
    match matchEntries idsplit inst entries with
    | none => some (.error ⟨.cs,.ENOMEM⟩)
    | some matches' => some (.ok matches')
end

section
/-- `CFG_DEP_LIST_RM`: the first record of the object goes; it must be there. -/
def forget (obj : Nat) : List CfgDependency → Option (List CfgDependency)
  | [] => none
  | d :: ds => if d.depends = obj then some ds else (forget obj ds).map (d :: ·)
def setDependsOn (db : Db) (a : Nat) (l : List CfgDependency) : Db := db.setObj a fun x => {x with depends_on := l}
/-- `forget_master` and the assertion on its result. -/
def forget_master (db : Db) (dependant obj : Nat) : Option Db := do
  let d ← db.objs.get dependant
  let rest ← forget obj d.depends_on
  some (setDependsOn db dependant rest)
/-- `forget_dependant` and the assertion on its result. -/
def forget_dependant (db : Db) (master obj : Nat) : Option Db := do
  let m ← db.objs.get master
  let rest ← forget obj m.dependants
  some (setDependants db master rest)

/-- The pattern of all instances of an object: `/subid:*` for each element. -/
def instPattern (ids : List CfgSubid) : CStr := (ids.map fun id => '/' :: (id.subid ++ ":*".toList)).flatten

/-- The instances found are deleted one after the other. -/
def deleteMatches (db : Db) : List Nat → Option Db
  | [] => some db
  | handle :: rest => do
    let a ← (db.cfg_all_inst[handleIndex handle]?).join
    let _ ← db.insts.get a
    let db ← cfg_db_del db handle
    deleteMatches db rest

/-- The object leaves the topological order; at its ends the missing neighbour is null. -/
def unlinkOrder (db : Db) (o : CfgObject) : Db := linkPrev (linkNext db o.dep_prev o.dep_next) o.dep_next o.dep_prev
/-- The object leaves the tree of objects. -/
def unlinkTree (db : Db) (father obj : Nat) (o : CfgObject) : Option Db := do
  let f ← db.objs.get father
  if f.son = some obj then some (db.setObj father fun x => {x with son := o.brother})
  else do
    let brother ← scan db.objs (fun x => x.brother) (fun x => decide (x.brother = some obj)) db.objs.size f.son
    let brother ← brother
    some (db.setObj brother fun x => {x with brother := o.brother})

/-- The body of `cfg_db_unregister_obj_by_id_str` for an object that may go. -/
def unregisterObj (db : Db) (id : CStr) (obj : Nat) (o : CfgObject) (father : Nat) : Option (Db × Rc) := do
  let db ← o.dependants.foldlM (fun db d => forget_master db d.depends obj) db
  let idsplit ← cfg_convert_oid_str id
  match ← cfg_db_find_pattern db (instPattern idsplit.ids.tail) with
  | .error err => some (db,some err)
  | .ok matches' => do
    let db ← deleteMatches db matches'
    let o ← db.objs.get obj
    let db ← o.depends_on.foldlM (fun db d => forget_dependant db d.depends obj) db
    let o ← db.objs.get obj
    let db ← unlinkTree (unlinkOrder db o) father obj o
    -- The OID of a reserved object was not allocated, so it is not to be freed.
    if obj < CFG_OBJ_HANDLE_NUM_RSRVD then none
    else some ({db with cfg_all_obj := db.cfg_all_obj.set o.handle none,objs := db.objs.free obj},none)
/-- `cfg_db_unregister_obj_by_id_str`. -/
def cfg_db_unregister_obj_by_id_str (db : Db) (id : CStr) : Option (Db × Rc) := do
  match ← cfg_get_obj_by_obj_id_str db id with
  | none => some (db,te_rc .cs (te .EINVAL))
  | some obj => do
    let o ← db.objs.get obj
    if o.son ≠ none then some (db,te_rc .cs (te .EINVAL))
    else match o.father with
      | none => some (db,te_rc .cs (te .EINVAL))
      | some father => unregisterObj db id obj o father
end

section
variable [Libc]

/-- `cfg_add_dependency_msg`. -/
structure CfgAddDependencyMsg where
  handle : Nat
  oid : CStr
  object_wide : Bool
  deriving DecidableEq, Repr

/-- `cfg_process_msg_add_dependency`: a master that is not found makes an orphan. -/
def cfg_process_msg_add_dependency (db : Db) (msg : CfgAddDependencyMsg) : Option (Db × Rc) :=
  if CFG_IS_INST msg.handle then some (db,te .EINVAL)
  else match CFG_GET_OBJ db msg.handle with
    | none => some (db,te .ENOENT)
    | some obj => do
      let (db,rc,master_handle) ← cfg_db_find db msg.oid
      if rc ≠ none then
        let orph : CfgOrphan :=
          {object := obj,object_wide := msg.object_wide,master := cfg_convert_oid_str msg.oid}
        some ({db with orphaned_objects := orph :: db.orphaned_objects},none)
      else do
        let master ← CFG_GET_OBJ db master_handle
        let db ← cfg_create_dep db master obj msg.object_wide
        some (db,none)
end

section
/-- The reserved objects, in the order of their handles. -/
def reservedObject (handle : Nat) (oid subid : String) (type : CfgValType) (access : CfgAccess) (vol : Bool)
    (father son brother : Option Nat) : CfgObject where
  handle := handle
  oid := oid.toList
  subid := subid.toList
  type := type
  access := access
  def_val := none
  vol := vol
  father := father
  son := son
  brother := brother
  ordinal_number := 0
  depends_on := []
  dependants := []
  dep_next := none
  dep_prev := none
  substitution := false
  unit := false
  unit_part := false
def reservedObjects : List CfgObject := [
  reservedObject 0 "/" "" .none .read_only false none (some 1) none,
  reservedObject 1 "/agent" "agent" .none .read_only false (some 0) (some 2) (some 6),
  reservedObject 2 "/agent/rsrc" "rsrc" .string .read_create false (some 1) (some 3) none,
  reservedObject 3 "/agent/rsrc/shared" "shared" .int32 .read_write true (some 2) none (some 4),
  reservedObject 4 "/agent/rsrc/acquire_attempts_timeout" "acquire_attempts_timeout" .int32 .read_write false
    (some 2) none (some 5),
  reservedObject 5 "/agent/rsrc/fallback_shared" "fallback_shared" .int32 .read_write false (some 2) none none,
  reservedObject 6 "/conf_delay" "conf_delay" .string .read_create true (some 0) (some 7) none,
  reservedObject 7 "/conf_delay/ta" "ta" .int32 .read_create true (some 6) none none]

def rootInstance : CfgInstance where
  father := none
  son := none
  brother := none
  handle := 0x10000
  oid := "/:".toList
  name := []
  obj := cfg_obj_root
  added := true
  remove := false
  val := .none

/-- The database before the dependencies of the reserved objects and the agents. -/
def emptyDb : Db where
  objs := ⟨reservedObjects.map some⟩
  insts := ⟨[some rootInstance]⟩
  cfg_all_obj := (List.range CFG_OBJ_HANDLE_NUM_RSRVD).map some ++
    replicate (CFG_OBJ_NUM-CFG_OBJ_HANDLE_NUM_RSRVD) none
  cfg_all_inst := some cfg_inst_root :: replicate (CFG_INST_NUM-1) none
  cfg_all_inst_max := 1
  cfg_inst_seq_num := 1
  orphaned_objects := []
  topological_order := none

/-- The loop of `cfg_ta_add_agent_instances` from the slot `i` on: each agent is
    linked behind the one before it. -/
def addAgents : Nat → Db → List CStr → Option Db
  | _, db, [] => some db
  | i, db, ta :: tas =>
    if i ≥ db.cfg_all_inst.length then none
    else do
      let a := db.insts.fresh
      let (handle,db) := CFG_NEW_INST_HANDLE db i
      let db := {db with
        insts := db.insts.alloc
          {father := some cfg_inst_root,son := none,brother := none,handle := handle,oid := CFG_TA_PREFIX ++ ta,
           name := ta,obj := cfg_obj_agent,added := false,remove := false,val := .none}
        cfg_all_inst := db.cfg_all_inst.set i (some a)}
      let prev ← (db.cfg_all_inst[i-1]?).join
      let db := if i = 1 then db.setInst prev fun x => {x with son := some a}
        else db.setInst prev fun x => {x with brother := some a}
      addAgents (i+1) db tas

/-- `cfg_db_init` with the agents that RCF names; `none` if it fails. -/
def cfg_db_init (tas : List CStr) : Option Db := do
  let db ← cfg_create_dep emptyDb 2 3 true
  let db ← cfg_create_dep db 2 4 true
  let db ← cfg_create_dep db 2 5 true
  if tas.all fun ta => decide (ta.length < CFG_INST_NAME_MAX) then addAgents 1 db tas else none
end

section
variable [Libc]

/-- What `process_register` does to the database: the object, and its instances
    below all instances of its father unless they are created on request. -/
def registerRequest (db : Db) (msg : CfgRegisterMsg) : Option (Db × Rc) := do
  let (db,rc,handle) ← cfg_process_msg_register db msg
  if rc ≠ none then some (db,rc)
  else do
    let a ← CFG_GET_OBJ db handle
    let obj ← db.objs.get a
    if obj.access ≠ .read_only ∧ obj.type = .double then some (db,te .EOPNOTSUPP)
    else if obj.access = .read_write ∨ obj.access = .read_only then cfg_add_all_inst_by_obj db a
    else some (db,none)

/-- The operations on the database that all requests and the synchronisation with
    the agents are made of. -/
inductive DbOp
  | register (msg : CfgRegisterMsg)
  | unregister (id : CStr)
  | add_dependency (msg : CfgAddDependencyMsg)
  | add (oid : CStr) (type : CfgValType) (val : CfgInstVal)
  | find (oid : CStr)
  | set (handle : Nat) (val : CfgInstVal)
  | del (handle : Nat)
  /-- `inst->added = true`. -/
  | added (handle : Nat)
  /-- `inst->remove = remove`: a local deletion, or its rollback. -/
  | remove (handle : Nat) (remove : Bool)
  deriving DecidableEq, Repr

def flagInst (db : Db) (handle : Nat) (f : CfgInstance → CfgInstance) : Option Db := do
  let inst ← CFG_GET_INST db handle
  let inst ← inst
  some (db.setInst inst f)

/-- One operation: the database and the status afterwards. -/
def dbStep (db : Db) : DbOp → Option (Db × Rc)
  | .register msg => registerRequest db msg
  | .unregister id => cfg_db_unregister_obj_by_id_str db id
  | .add_dependency msg => cfg_process_msg_add_dependency db msg
  | .add oid type val => (cfg_db_add db oid type val).map fun (db,rc,_) => (db,rc)
  | .find oid => (cfg_db_find db oid).map fun (db,rc,_) => (db,rc)
  | .set handle val => cfg_db_set db handle val
  | .del handle => (cfg_db_del db handle).map fun db => (db,none)
  | .added handle => (flagInst db handle fun x => {x with added := true}).map fun db => (db,none)
  | .remove handle remove => (flagInst db handle fun x => {x with remove := remove}).map fun db => (db,none)
end
end TestEnvironment.Configurator
