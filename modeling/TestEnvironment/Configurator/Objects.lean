import TestEnvironment.Configurator.Database

/-!
Objects and their dependencies (`conf_db.c`): the topologically ordered list of
all objects, the two dependency lists of each object, dependencies on masters
that are not registered yet, and the registration of objects.
-/
namespace TestEnvironment.Configurator
open Lib

/-- `unsigned`: ordinal numbers wrap. -/
def UINT_MOD : Nat := 2^32

section
/-- Writes to the link that leads on from `p`: its `dep_next`, or the head of the list. -/
def linkNext (db : Db) (p q : Option Nat) : Db :=
  match p with
  | some p => db.setObj p fun x => {x with dep_next := q}
  | none => {db with topological_order := q}
/-- Writes to the `dep_prev` of `p`, if there is one. -/
def linkPrev (db : Db) (p q : Option Nat) : Db :=
  match p with
  | some p => db.setObj p fun x => {x with dep_prev := q}
  | none => db

/-- The first part of `cfg_put_in_order_dep`: an object whose successor does not
    have a greater ordinal number is moved behind all that do not. -/
def moveBehind (db : Db) (obj : Nat) : Option Db := do
  let o ← db.objs.get obj
  match o.dep_next with
  | none => some db
  | some next => do
    let n ← db.objs.get next
    if n.ordinal_number ≤ o.ordinal_number then do
      let (prev,place) ← scanPrev db.objs CfgObject.dep_next
        (fun x => decide (x.ordinal_number > o.ordinal_number)) db.objs.size (some obj) o.dep_next
      let prev ← prev
      let db := linkPrev db o.dep_next o.dep_prev
      let db := linkNext db o.dep_prev o.dep_next
      let db := linkNext db (some prev) (some obj)
      let db := linkPrev db place (some obj)
      some (db.setObj obj fun x => {x with dep_next := place,dep_prev := some prev})
    else some db

def setOrdinal (db : Db) (a n : Nat) : Db := db.setObj a fun x => {x with ordinal_number := n % UINT_MOD}
/-- `cfg_put_in_order_dep`; the calls nest `fuel` deep at most. -/
def cfg_put_in_order_dep : Nat → Db → Nat → Option Db
  | 0, _, _ => none
  | fuel+1, db, obj => do
    let db ← moveBehind db obj
    let o ← db.objs.get obj
    o.dependants.foldlM (fun db dep => do
      let o ← db.objs.get obj
      let d ← db.objs.get dep.depends
      if d.ordinal_number ≤ o.ordinal_number then
        cfg_put_in_order_dep fuel (setOrdinal db dep.depends (o.ordinal_number+1)) dep.depends
      else some db) db
end

section
/-- `for (u = obj; u != NULL && !u->unit; u = u->father);`. -/
def unitOf (db : Db) (obj : Nat) : Option (Option Nat) :=
  scan db.objs (fun x => x.father) CfgObject.unit db.objs.size (some obj)

/-- The object that gets the dependency: for a part of a unit that depends on
    something outside of it, the unit; nothing if the unit itself is the master. -/
def dependantOf (db : Db) (master obj : Nat) : Option (Option Nat) := do
  let o ← db.objs.get obj
  let m ← db.objs.get master
  if o.unit_part ∧ o.father ≠ some master then do
    let obj_unit ← unitOf db obj
    let master_unit ← if m.unit_part then unitOf db master else some (some master)
    if obj_unit ≠ master_unit then
      some (if obj_unit = none ∨ obj_unit = some master then none else obj_unit)
    else some (some obj)
  else some (some obj)

/-- The new record is put behind the first one that is the last or of an object
    with a greater OID. -/
def insertDependant (db : Db) (oid : CStr) (new : CfgDependency) : List CfgDependency → Option (List CfgDependency)
  | [] => some [new]
  | [d] => some [d,new]
  | d :: d' :: ds => do
    let x ← db.objs.get d.depends
    if strLess oid x.oid then some (d :: new :: d' :: ds)
    else (insertDependant db oid new (d' :: ds)).map (d :: ·)

/-- The new record in the list of the dependant, whose ordinal number becomes
    greater than the one of the master. -/
def recordMaster (db : Db) (obj master : Nat) (m : CfgObject) (object_wide : Bool) : Db :=
  db.setObj obj fun o =>
    {o with depends_on := ⟨master,object_wide⟩ :: o.depends_on
            ordinal_number := if m.ordinal_number ≥ o.ordinal_number then (m.ordinal_number+1) % UINT_MOD
              else o.ordinal_number}
def setDependants (db : Db) (a : Nat) (l : List CfgDependency) : Db := db.setObj a fun x => {x with dependants := l}

/-- `cfg_create_dep`. -/
def cfg_create_dep (db : Db) (master obj : Nat) (object_wide : Bool) : Option Db := do
  match ← dependantOf db master obj with
  | none => some db
  | some obj => do
    let m ← db.objs.get master
    let db ← cfg_put_in_order_dep db.objs.size (recordMaster db obj master m object_wide) obj
    let o ← db.objs.get obj
    let m ← db.objs.get master
    let dependants ← insertDependant db o.oid ⟨obj,object_wide⟩ m.dependants
    some (setDependants db master dependants)

/-- The loop of `cfg_maybe_adopt_objects`: the orphans of this master get their
    dependency, the others are kept. -/
def adopt (master : Nat) (oid : CfgOid) : List CfgOrphan → Db → Option (Db × List CfgOrphan)
  | [], db => some (db,[])
  | orphan :: rest, db => do
    let m ← orphan.master
    if cfg_oid_cmp oid m then do
      let db ← cfg_create_dep db master orphan.object orphan.object_wide
      adopt master oid rest db
    else do
      let (db,kept) ← adopt master oid rest db
      some (db,orphan :: kept)
/-- `cfg_maybe_adopt_objects`. -/
def cfg_maybe_adopt_objects (db : Db) (master : Nat) (oid : CfgOid) : Option Db := do
  let (db,kept) ← adopt master oid db.orphaned_objects db
  some {db with orphaned_objects := kept}
end

section
/-- `cfg_register_msg`. -/
structure CfgRegisterMsg where
  oid : CStr
  def_val : Option CStr
  val_type : CfgValType
  access : CfgAccess
  vol : Bool
  no_parent_dep : Bool
  substitution : Bool
  unit : Bool
  deriving DecidableEq, Repr

/-- The object that a registration creates below `father`. -/
def newObject (db : Db) (msg : CfgRegisterMsg) (father : Nat) (f : CfgObject) (subid : CStr) (handle : Nat) : CfgObject where
  father := some father
  son := none
  brother := f.son
  handle := handle
  oid := msg.oid
  subid := subid
  type := msg.val_type
  access := msg.access
  def_val := msg.def_val
  vol := msg.vol || f.vol
  ordinal_number := 0
  depends_on := []
  dependants := []
  dep_next := db.topological_order
  dep_prev := none
  substitution := msg.substitution
  unit := msg.unit
  unit_part := f.unit || f.unit_part

/-- The new object becomes the first son of its father and the head of the
    topological order. -/
def linkObject (db : Db) (table : List (Option Nat)) (new : CfgObject) (father : Nat) : Db :=
  let a := db.objs.fresh
  let db := {db with objs := db.objs.alloc new,cfg_all_obj := table.set new.handle (some a)}
  let db := db.setObj father fun f => {f with son := some a}
  let db := linkPrev db new.dep_next (some a)
  {db with topological_order := some a}

/-- `cfg_process_msg_register`: the status and the handle of the new object. -/
def cfg_process_msg_register (db : Db) (msg : CfgRegisterMsg) : Option (Db × Rc × Nat) :=
  match cfg_convert_oid_str msg.oid with
  | none => some (db,te .EINVAL,0)
  | some oid =>
    if oid.inst then some (db,te .EINVAL,0)
    else do
      match ← lookForFather db.objs CfgObject.toLinks objIs oid.ids cfg_obj_root with
      | none => some (db,te .ENOENT,0)
      | some father => do
        let f ← db.objs.get father
        let id ← oid.ids.getLast?
        if (f.unit || f.unit_part) && msg.unit then some (db,te .EINVAL,0)
        else match ← scan db.objs (fun x => x.brother) (objIs id) db.objs.size f.son with
          | some _ => some (db,te_rc .cs (te .EEXIST),0)
          | none => match takeSlot db.cfg_all_obj CFG_OBJ_NUM with
            | none => some (db,te .ETOOMANY,0)
            | some (i,table) => do
              let a := db.objs.fresh
              let db := linkObject db table (newObject db msg father f id.subid i) father
              let db ← cfg_maybe_adopt_objects db a oid
              let db ← if !msg.no_parent_dep && father ≠ cfg_obj_root && father ≠ cfg_obj_agent
                then cfg_create_dep db father a false else some db
              some (db,none,i)
end
end TestEnvironment.Configurator
