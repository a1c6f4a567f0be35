import TestEnvironment.Configurator.Oid
import TestEnvironment.Lib.Forest

/-!
The Configurator database (`conf_db.h`): objects and object instances, the two
tables that handles index, and the loops that look entities up by their OID.

Every function gives `none` where the source reads a null pointer or a freed
cell, writes behind an array, fails an assertion or exhausts the stack; an
allocation always succeeds.
-/
namespace TestEnvironment.Configurator
open Lib

def CFG_OBJ_NUM : Nat := 64
def CFG_INST_NUM : Nat := 128
/-- `UINT32_MAX`, the largest index a handle has room for. -/
def CFG_HANDLE_MAX_INDEX : Nat := 2^32-1
def CFG_HANDLE_INVALID : Nat := 2^64-1

/-- `CFG_READ_ONLY`, `CFG_READ_WRITE` and `CFG_READ_CREATE`. -/
inductive CfgAccess
  | read_only | read_write | read_create
  deriving DecidableEq, Repr

structure CfgDependency where
  depends : Nat
  object_wide : Bool
  deriving DecidableEq, Repr

structure CfgObject extends Links where
  handle : Nat
  oid : CStr
  subid : CStr
  type : CfgValType
  access : CfgAccess
  def_val : Option CStr
  vol : Bool
  ordinal_number : Nat
  depends_on : List CfgDependency
  dependants : List CfgDependency
  dep_next : Option Nat
  dep_prev : Option Nat
  substitution : Bool
  unit : Bool
  unit_part : Bool
  deriving DecidableEq, Repr

structure CfgInstance extends Links where
  handle : Nat
  oid : CStr
  name : CStr
  obj : Nat
  added : Bool
  remove : Bool
  val : CfgInstVal
  deriving DecidableEq, Repr

/-- A dependency on a master that is not registered yet; `master` is null if its OID does not convert. -/
structure CfgOrphan where
  object : Nat
  master : Option CfgOid
  object_wide : Bool
  deriving DecidableEq, Repr

/-- The globals of `conf_db.c`; objects and instances live in heaps of their own. -/
structure Db where
  objs : Heap CfgObject
  insts : Heap CfgInstance
  cfg_all_obj : List (Option Nat)
  cfg_all_inst : List (Option Nat)
  cfg_all_inst_max : Nat
  cfg_inst_seq_num : Nat
  orphaned_objects : List CfgOrphan
  topological_order : Option Nat
  deriving DecidableEq, Repr

/-- The cells of the root object, the object `/agent` and the root instance. -/
def cfg_obj_root : Nat := 0
def cfg_obj_agent : Nat := 1
def cfg_inst_root : Nat := 0
def CFG_OBJ_HANDLE_NUM_RSRVD : Nat := 8

namespace Db
def setObj (db : Db) (a : Nat) (f : CfgObject → CfgObject) : Db := {db with objs := db.objs.modify a f}
def setInst (db : Db) (a : Nat) (f : CfgInstance → CfgInstance) : Db := {db with insts := db.insts.modify a f}
end Db

section
/-- `CFG_INST_HANDLE_TO_INDEX`. -/
def handleIndex (handle : Nat) : Nat := handle % 2^32
/-- `CFG_IS_INST`: some bit above the index is set. -/
def CFG_IS_INST (handle : Nat) : Bool := decide (handle/2^32 % 2^32 ≠ 0)

/-- `CFG_GET_OBJ`; the null pointer is `none`. -/
def CFG_GET_OBJ (db : Db) (handle : Nat) : Option Nat := (db.cfg_all_obj[handle]?).join
/-- `CFG_GET_INST`; the size of the table is cut down to 32 bits. -/
def CFG_GET_INST (db : Db) (handle : Nat) : Option (Option Nat) :=
  if handle = CFG_HANDLE_INVALID then some none
  else if ¬ handleIndex handle < db.cfg_all_inst.length % 2^32 then some none
  else match (db.cfg_all_inst[handleIndex handle]?).join with
    | none => some none
    | some a => (db.insts.get a).bind fun inst => some (if inst.handle = handle then some a else none)

/-- `CFG_NEW_INST_HANDLE`. -/
def CFG_NEW_INST_HANDLE (db : Db) (idx : Nat) : Nat × Db :=
  let n := if db.cfg_inst_seq_num = 0 then 1 else db.cfg_inst_seq_num
  (idx+n*2^32,{db with cfg_inst_seq_num := (n+1) % 2^32})

/-- The first empty slot of a table, which is enlarged by `step` slots if it is full. -/
def takeSlot (table : List (Option Nat)) (step : Nat) : Option (Nat × List (Option Nat)) :=
  let i := table.findIdx Option.isNone
  if i > CFG_HANDLE_MAX_INDEX then none
  else some (i,if i = table.length then table ++ replicate step none else table)
end

section
/-- `strcmp(obj->subid, id->subid) == 0`. -/
def objIs (id : CfgSubid) (obj : CfgObject) : Bool := decide (obj.subid = id.subid)
/-- The instance has this subid and name and is not scheduled for removal. -/
def instIs (db : Db) (id : CfgSubid) (inst : CfgInstance) : Bool :=
  (db.objs.get inst.obj).any (objIs id) && decide (inst.name = id.name) && !inst.remove

/-- The loop of all lookups: among the brothers from `p` on the first one that
    matches the first element, among its sons the first one that matches the
    next, and so on. Reading behind the last element is `none`. -/
def descend {α : Type} (h : Heap α) (links : α → Links) (is : CfgSubid → α → Bool) :
    List CfgSubid → Option Nat → Option (Option Nat)
  | [], _ => none
  | [id], p => scan h (fun x => (links x).brother) (is id) h.size p
  | id :: ids, p =>
    (scan h (fun x => (links x).brother) (is id) h.size p).bind fun
      | none => some none
      | some a => (h.get a).bind fun x => descend h links is ids (links x).son
def descendObj (db : Db) : List CfgSubid → Option Nat → Option (Option Nat) :=
  descend db.objs CfgObject.toLinks objIs
def descendInst (db : Db) : List CfgSubid → Option Nat → Option (Option Nat) :=
  descend db.insts CfgInstance.toLinks (instIs db)

/-- The father of the entity that `ids` name. The loop compares the number of
    elements passed with `len - 1` only after the first one, so with a single
    element it goes on behind the array. -/
def lookForFather {α : Type} (h : Heap α) (links : α → Links) (is : CfgSubid → α → Bool) (ids : List CfgSubid)
    (root : Nat) : Option (Option Nat) :=
  if ids.length = 1 then
    (h.get root).bind fun r => if (links r).son = none then some none else none
  else descend h links is ids.dropLast (some root)

/-- `cfg_get_obj_by_obj_id_str`. -/
def cfg_get_obj_by_obj_id_str (db : Db) (str : CStr) : Option (Option Nat) :=
  match cfg_convert_oid_str str with
  | none => some none
  | some oid => if oid.inst then some none else descendObj db oid.ids (some cfg_obj_root)
/-- `cfg_get_object`: the object of an instance OID. -/
def cfg_get_object (db : Db) (str : CStr) : Option (Option Nat) :=
  match cfg_convert_oid_str str with
  | none => some none
  | some oid => if ¬ oid.inst then some none else descendObj db oid.ids (some cfg_obj_root)
/-- `cfg_get_ins_by_ins_id_str`. -/
def cfg_get_ins_by_ins_id_str (db : Db) (str : CStr) : Option (Option Nat) :=
  match cfg_convert_oid_str str with
  | none => some none
  | some oid => if ¬ oid.inst then some none else descendInst db oid.ids (some cfg_inst_root)
end

section
theorem takeSlot_spec {table table' : List (Option Nat)} {step i : Nat} (positive : 0 < step)
    (taken : takeSlot table step = some (i,table')) :
    i ≤ CFG_HANDLE_MAX_INDEX ∧ i < table'.length ∧ (table[i]?).join = none ∧
      (∀ j : Nat, (table'[j]?).join = (table[j]?).join) ∧
      (table' = table ∨ i = table.length ∧ table'.length = table.length+step) := by
  unfold takeSlot at taken
  dsimp only at taken
  split at taken
  · cases taken
  rename_i inRange
  obtain ⟨rfl,rfl⟩ := of_pair taken
  refine ⟨by omega,?_⟩
  by_cases full : table.findIdx Option.isNone = table.length
  · rw [if_pos full,full]
    refine ⟨by simp; omega,by simp,?_,.inr ⟨rfl,by simp⟩⟩
    intro j
    by_cases old : j < table.length
    · rw [getElem?_append_left old]
    · grind
  · rw [if_neg full]
    have inside := List.findIdx_lt_length.mp (Nat.lt_of_le_of_ne List.findIdx_le_length full)
    have here := List.findIdx_getElem (w := List.findIdx_lt_length.mpr inside)
    refine ⟨List.findIdx_lt_length.mpr inside,?_,fun _ => rfl,.inl rfl⟩
    rw [getElem?_eq_getElem (List.findIdx_lt_length.mpr inside)]
    simpa using here
end
end TestEnvironment.Configurator
