import TestEnvironment.Configurator.Objects

/-!
Object instances (`conf_db.c`): how they are added, with their automatic
children, found, set, read and deleted with their subtree.
-/
namespace TestEnvironment.Configurator
open Lib

section
variable [Libc]

/-- The value of an instance that is added without one. -/
def initialVal (obj : CfgObject) : Except TeErr CfgInstVal :=
  if obj.type = .none then .ok .none
  else match obj.def_val with
    | some s => str2val obj.type s
    | none => def_val obj.type

/-- A new instance in a slot of the table, below `father` and behind `prev` or first. -/
def linkInstance (db : Db) (table : List (Option Nat)) (i : Nat) (father : Nat) (prev : Option Nat)
    (obj : Nat) (oid name : CStr) (val : CfgInstVal) : Option (Db × Nat) := do
  let a := db.insts.fresh
  let (handle,db) := CFG_NEW_INST_HANDLE db i
  let link (db : Db) (brother : Option Nat) : Db :=
    {db with insts := db.insts.alloc
               {father := some father,son := none,brother := brother,handle := handle,oid := oid,name := name
                obj := obj,added := false,remove := false,val := val}
             cfg_all_inst := table.set i (some a)}
  match prev with
  | some p => do
    let q ← db.insts.get p
    some ((link db q.brother).setInst p fun x => {x with brother := some a},a)
  | none => do
    let f ← db.insts.get father
    some ((link db f.son).setInst father fun x => {x with son := some a},a)

/-- The OID of the automatic child of an instance. -/
def childOid (par : CfgInstance) (obj : CfgObject) : CStr :=
  (if par.oid = "/:".toList then [] else par.oid) ++ '/' :: (obj.subid ++ [':'])

/-- `cfg_add_with_obj_and_parent`: the status and the new instance. -/
def cfg_add_with_obj_and_parent (db : Db) (par_inst obj : Nat) : Option (Db × Rc × Nat) := do
  let par ← db.insts.get par_inst
  let o ← db.objs.get obj
  match takeSlot db.cfg_all_inst CFG_INST_NUM with
  | none => some (db,te .ETOOMANY,0)
  | some (i,table) => match initialVal o with
    | .error err => some ({db with cfg_all_inst := table},te err,0)
    | .ok val => do
      let (db,a) ← linkInstance db table i par_inst none obj (childOid par o) [] val
      some (db,none,a)

/-- `cfg_db_add_children`, the loop over the sons of an object from `obj` on. -/
def cfg_db_add_children : Nat → Db → Nat → Option Nat → Option (Db × Rc)
  | _, db, _, none => some (db,none)
  | 0, _, _, some _ => none
  | fuel+1, db, inst, some obj => do
    let o ← db.objs.get obj
    if o.access = .read_create then cfg_db_add_children fuel db inst o.brother
    else do
      let (db,rc,child) ← cfg_add_with_obj_and_parent db inst obj
      if rc ≠ none then some (db,rc)
      else do
        let (db,rc) ← cfg_db_add_children fuel db child o.son
        if rc ≠ none then some (db,rc) else cfg_db_add_children fuel db inst o.brother

/-- The loop of `cfg_add_all_inst_by_obj` from the slot `i` on. -/
def addAllFrom (obj : Nat) : Nat → Nat → Db → Option (Db × Rc)
  | 0, _, _ => none
  | fuel+1, i, db =>
    if i < db.cfg_all_inst.length then
      match (db.cfg_all_inst[i]?).join with
      | none => addAllFrom obj fuel (i+1) db
      | some a => do
        let o ← db.objs.get obj
        let father ← o.father
        let f ← db.objs.get father
        let par_inst ← db.insts.get a
        let parObj ← db.objs.get par_inst.obj
        if parObj.handle ≠ f.handle then addAllFrom obj fuel (i+1) db
        else do
          let (db,rc,_) ← cfg_add_with_obj_and_parent db a obj
          if rc ≠ none then some (db,rc) else addAllFrom obj fuel (i+1) db
    else some (db,none)
/-- `cfg_add_all_inst_by_obj`. The table grows by as many instances as it holds at most. -/
def cfg_add_all_inst_by_obj (db : Db) (obj : Nat) : Option (Db × Rc) :=
  addAllFrom obj (2*db.cfg_all_inst.length+CFG_INST_NUM+1) 0 db

/-- The scan for an instance with the OID ends at the first brother that is not
    scheduled for removal and does not have a smaller OID. -/
def stopsAt (oid_s : CStr) (inst : CfgInstance) : Bool := !(strLess inst.oid oid_s || inst.remove)

/-- `inst != NULL && strcmp(inst->oid, oid_s) == 0`. -/
def sameOid (db : Db) (oid_s : CStr) : Option Nat → Option Bool
  | none => some false
  | some a => (db.insts.get a).map fun x => decide (x.oid = oid_s)

/-- The value that `cfg_db_add` stores, `val` being of the type `type`. -/
def addedVal (obj : CfgObject) (type : CfgValType) (val : CfgInstVal) : Except TeErr CfgInstVal :=
  if obj.type ≠ .none ∧ type ≠ .none then copy val else initialVal obj

/-- `cfg_db_add`: the status and the handle of the new instance. -/
def cfg_db_add (db : Db) (oid_s : CStr) (type : CfgValType) (val : CfgInstVal) : Option (Db × Rc × Nat) :=
  match cfg_convert_oid_str oid_s with
  | none => some (db,te .EINVAL,0)
  | some oid =>
    if ¬ oid.inst then some (db,te .EINVAL,0)
    else do
      match ← lookForFather db.insts CfgInstance.toLinks (instIs db) oid.ids cfg_inst_root with
      | none => some (db,te .ENOENT,0)
      | some father => do
        let f ← db.insts.get father
        let fobj ← db.objs.get f.obj
        let s ← oid.ids.getLast?
        match ← scan db.objs (fun x => x.brother) (objIs s) db.objs.size fobj.son with
        | none => some (db,te .ENOENT,0)
        | some obj => do
          let o ← db.objs.get obj
          if o.type ≠ type ∧ type ≠ .none then some (db,te .EBADTYPE,0)
          else do
            let (prev,inst) ← scanPrev db.insts (fun x => x.brother) (stopsAt oid_s) db.insts.size none f.son
            let same ← sameOid db oid_s inst
            if same then some (db,te .EEXIST,0)
            else match takeSlot db.cfg_all_inst CFG_INST_NUM with
              | none => some (db,te .ETOOMANY,0)
              | some (i,table) => match addedVal o type val with
                | .error err => some ({db with cfg_all_inst := table},te err,0)
                | .ok v => do
                  let (db,a) ← linkInstance db table i father prev obj oid_s s.name v
                  let db := {db with cfg_all_inst_max := max db.cfg_all_inst_max i}
                  let inst ← db.insts.get a
                  if startsWith CFG_TA_PREFIX inst.oid then some (db,none,inst.handle)
                  else do
                    let (db,rc) ← cfg_db_add_children db.objs.size db a o.son
                    some (db,rc,inst.handle)
end

section
variable [Libc]

/-- The loop of `cfg_db_find` over an instance OID: where it ends, whether the last
    element was reached, the last ancestor found, and whether some ancestor is a
    local addition. -/
def findInst (db : Db) : List CfgSubid → Option Nat → Option Nat → Bool → Option (Option Nat × Bool × Option Nat × Bool)
  | [], _, _, _ => none
  | [id], p, last, missing => do
    let tmp ← scan db.insts (fun x => x.brother) (instIs db id) db.insts.size p
    some (tmp,true,last,missing)
  | id :: ids, p, last, missing => do
    match ← scan db.insts (fun x => x.brother) (instIs db id) db.insts.size p with
    | none => some (none,false,last,missing)
    | some a => do
      let inst ← db.insts.get a
      let obj ← db.objs.get inst.obj
      findInst db ids inst.son (some a) (missing || (decide (obj.access = .read_create) && !inst.added))

/-- `cfg_db_find`: below a local addition a child that is missing is added. -/
def cfg_db_find (db : Db) (oid_s : CStr) : Option (Db × Rc × Nat) :=
  match cfg_convert_oid_str oid_s with
  | none => some (db,te .EINVAL,0)
  | some oid =>
    if oid.inst then do
      let (tmp,atEnd,last_subinst,not_added_ancestor) ← findInst db oid.ids (some cfg_inst_root) none false
      match tmp with
      | some a => do
        let inst ← db.insts.get a
        some (db,none,inst.handle)
      | none =>
        if not_added_ancestor && atEnd then do
          let last ← last_subinst
          let l ← db.insts.get last
          let lobj ← db.objs.get l.obj
          let s ← oid.ids.getLast?
          match ← scan db.objs (fun x => x.brother) (objIs s) db.objs.size lobj.son with
          | none => some (db,te .EINVAL,0)
          | some _ => cfg_db_add db oid_s .none .none
        else some (db,te .ENOENT,0)
    else do
      match ← descendObj db oid.ids (some cfg_obj_root) with
      | none => some (db,te .ENOENT,0)
      | some a => do
        let obj ← db.objs.get a
        some (db,none,obj.handle)
end

section
/-- The end of `delete_son`: the instance leaves its father's list and the table. -/
def unlinkSon (db : Db) (father son : Nat) : Option Db := do
  let f ← db.insts.get father
  let s ← db.insts.get son
  let db ← if f.son = some son then some (db.setInst father fun x => {x with son := s.brother})
    else do
      let brother ← scan db.insts (fun x => x.brother) (fun x => decide (x.brother = some son)) db.insts.size f.son
      let brother ← brother
      some (db.setInst brother fun x => {x with brother := s.brother})
  if handleIndex s.handle < db.cfg_all_inst.length then
    some {db with cfg_all_inst := db.cfg_all_inst.set (handleIndex s.handle) none,insts := db.insts.free son}
  else none
/-- The loop of `delete_son` over the sons from `tmp` on. -/
def deleteSons : Nat → Db → Nat → Option Nat → Option Db
  | _, db, _, none => some db
  | 0, _, _, some _ => none
  | fuel+1, db, father, some tmp => do
    let t ← db.insts.get tmp
    let db ← deleteSons fuel db tmp t.son
    let db ← unlinkSon db father tmp
    deleteSons fuel db father t.brother
/-- `delete_son`. -/
def delete_son (db : Db) (father son : Nat) : Option Db := do
  let s ← db.insts.get son
  let db ← deleteSons (2*db.insts.size+1) db son s.son
  unlinkSon db father son
/-- `cfg_db_del`. -/
def cfg_db_del (db : Db) (handle : Nat) : Option Db := do
  let inst ← CFG_GET_INST db handle
  let inst ← inst
  let i ← db.insts.get inst
  let father ← i.father
  delete_son db father inst

/-- `has_read_create_children`, the loop over the sons from `tmp` on. -/
def hasReadCreate (db : Db) : Nat → Option Nat → Option Bool
  | _, none => some false
  | 0, some _ => none
  | fuel+1, some tmp => do
    let t ← db.insts.get tmp
    let o ← db.objs.get t.obj
    if o.access = .read_create then some true
    else do
      let below ← hasReadCreate db fuel t.son
      if below then some true else hasReadCreate db fuel t.brother
/-- `cfg_db_del_check`. -/
def cfg_db_del_check (db : Db) (handle : Nat) : Option Rc := do
  match ← CFG_GET_INST db handle with
  | none => some (te .ENOENT)
  | some a => do
    let inst ← db.insts.get a
    let below ← hasReadCreate db db.insts.size inst.son
    if below then some (te .EHASSON)
    else if inst.father = none then some (te .EISROOT)
    else some none
end

section
variable [Libc]

/-- `cfg_db_set`. -/
def cfg_db_set (db : Db) (handle : Nat) (val : CfgInstVal) : Option (Db × Rc) := do
  let inst ← CFG_GET_INST db handle
  let inst ← inst
  let i ← db.insts.get inst
  let o ← db.objs.get i.obj
  if o.type ≠ .none then match copy val with
    | .error err => some (db,te err)
    | .ok val0 => some (db.setInst inst fun x => {x with val := val0},none)
  else some (db,none)

def CS_SUBSTITUTION_DELIMITER : CStr := "$$".toList

/-- `replace_substitutions_to_values`: whether a delimiter was found, and the text
    in which every `$$oid$$` is replaced by the value of that instance. The text
    put in is read again; more than `fuel` replacements are taken for a loop that
    does not end. -/
def replace_substitutions_to_values (db : Db) : Nat → Bool → CStr → Option (Except TeErrno (Bool × CStr))
  | 0, _, _ => none
  | fuel+1, found, s =>
    match strstr CS_SUBSTITUTION_DELIMITER s with
    | none => some (.ok (found,s))
    | some (before,rest) => match strstr CS_SUBSTITUTION_DELIMITER rest with
      | none => some (.ok (true,s))
      | some (oid,rest) => do
        match ← cfg_get_ins_by_ins_id_str db oid with
        | none => some (.error ⟨.cs,.ENOENT⟩)
        | some a => do
          let inst ← db.insts.get a
          -- The value of an instance without one is left null.
          if inst.val = .none then none
          else match val2str inst.val with
          | .error err => some (.error ⟨.none,err⟩)
          | .ok value => do
            match ← replace_substitutions_to_values db fuel true (value ++ rest) with
            | .error err => some (.error err)
            | .ok (found,s) => some (.ok (found,before ++ s))
/-- `expand_substitution`. -/
def expand_substitution (db : Db) (val_in : CfgInstVal) (type : CfgValType) : Option (Except TeErrno CfgInstVal) :=
  let plain {α : Type} : Except TeErr α → Except TeErrno α := Except.mapError fun e => ⟨.none,e⟩
  match val2str val_in with
  | .error err => some (.error ⟨.none,err⟩)
  | .ok s => do
    match ← replace_substitutions_to_values db (2^32) false s with
    | .error err => some (.error err)
    | .ok (true,s) => some (plain (str2val type s))
    | .ok (false,_) => some (plain (copy val_in))

/-- `cfg_db_get`. -/
def cfg_db_get (db : Db) (handle : Nat) : Option (Except TeErrno CfgInstVal) := do
  match ← CFG_GET_INST db handle with
  | none => some (.error ⟨.none,.ENOENT⟩)
  | some a => do
    let inst ← db.insts.get a
    let o ← db.objs.get inst.obj
    if o.type ≠ .none then
      if o.substitution then expand_substitution db inst.val o.type
      else some ((copy inst.val).mapError fun e => ⟨.none,e⟩)
    else some (.ok .none)
end
end TestEnvironment.Configurator
