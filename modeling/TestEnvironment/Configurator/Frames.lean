import TestEnvironment.Configurator.Requests

/-!
What the operations on objects leave as it was. `Agree g db db'` says that two
databases differ in objects only, and there only in what `g` does not see:
`unordered` does not see the links of the topological order, `unnumbered`
neither these nor the ordinal numbers, `core` none of the dependency tracking.
-/
namespace TestEnvironment.Configurator
open Lib
universe u

def unordered (o : CfgObject) : CfgObject := {o with dep_next := none,dep_prev := none}
def unnumbered (o : CfgObject) : CfgObject := {unordered o with ordinal_number := 0}
def core (o : CfgObject) : CfgObject := {unnumbered o with depends_on := [],dependants := []}

section
variable {x y : CfgObject} (same : core x = core y)
include same
theorem core_links : x.toLinks = y.toLinks := show (core x).toLinks = (core y).toLinks by rw [same]
theorem core_father : x.father = y.father := congrArg Links.father (core_links same)
theorem core_handle : x.handle = y.handle := show (core x).handle = (core y).handle by rw [same]
theorem core_oid : x.oid = y.oid := show (core x).oid = (core y).oid by rw [same]
theorem core_subid : x.subid = y.subid := show (core x).subid = (core y).subid by rw [same]
theorem core_type : x.type = y.type := show (core x).type = (core y).type by rw [same]
theorem core_access : x.access = y.access := show (core x).access = (core y).access by rw [same]
end

structure Agree {β : Type u} (g : CfgObject → β) (db db' : Db) : Prop where
  objs : ∀ a, (db'.objs.get a).map g = (db.objs.get a).map g
  size : db'.objs.size = db.objs.size
  insts : db'.insts = db.insts
  cfg_all_obj : db'.cfg_all_obj = db.cfg_all_obj
  cfg_all_inst : db'.cfg_all_inst = db.cfg_all_inst
  cfg_inst_seq_num : db'.cfg_inst_seq_num = db.cfg_inst_seq_num
  orphaned_objects : db'.orphaned_objects = db.orphaned_objects

namespace Agree
variable {β γ : Type u} {g : CfgObject → β} {db db' db'' : Db}

theorem refl (g : CfgObject → β) (db : Db) : Agree g db db := ⟨fun _ => rfl,rfl,rfl,rfl,rfl,rfl,rfl⟩
theorem trans (first : Agree g db db') (second : Agree g db' db'') : Agree g db db'' where
  objs a := (second.objs a).trans (first.objs a)
  size := second.size.trans first.size
  insts := second.insts.trans first.insts
  cfg_all_obj := second.cfg_all_obj.trans first.cfg_all_obj
  cfg_all_inst := second.cfg_all_inst.trans first.cfg_all_inst
  cfg_inst_seq_num := second.cfg_inst_seq_num.trans first.cfg_inst_seq_num
  orphaned_objects := second.orphaned_objects.trans first.orphaned_objects

section
variable (agree : Agree g db db')
include agree
/-- What is seen through less agrees as well. -/
theorem comp {k : CfgObject → γ} (f : β → γ) (less : ∀ o, f (g o) = k o) : Agree k db db' where
  objs a := by
    have same := congrArg (Option.map f) (agree.objs a)
    simpa [Option.map_map,comp_def,less] using same
  size := agree.size
  insts := agree.insts
  cfg_all_obj := agree.cfg_all_obj
  cfg_all_inst := agree.cfg_all_inst
  cfg_inst_seq_num := agree.cfg_inst_seq_num
  orphaned_objects := agree.orphaned_objects
theorem forward {a : Nat} {x : CfgObject} (found : db.objs.get a = some x) :
    ∃ x', db'.objs.get a = some x' ∧ g x' = g x := by
  have same := agree.objs a
  rw [found] at same
  exact of_map same
theorem backward {a : Nat} {x' : CfgObject} (found : db'.objs.get a = some x') :
    ∃ x, db.objs.get a = some x ∧ g x = g x' := by
  have same := agree.objs a
  rw [found] at same
  exact of_map same.symm
theorem live (a : Nat) : (db'.objs.get a).isSome = (db.objs.get a).isSome := by
  have same := congrArg Option.isSome (agree.objs a)
  simpa using same
end
theorem setObj (db : Db) (a : Nat) {f : CfgObject → CfgObject} (unseen : ∀ x, g (f x) = g x) :
    Agree g db (db.setObj a f) where
  objs b := by
    simp only [Db.setObj,Heap.get_modify]
    by_cases same : b = a
    · subst same; cases db.objs.get b <;> simp [unseen]
    · simp [same]
  size := by simp [Db.setObj]
  insts := rfl
  cfg_all_obj := rfl
  cfg_all_inst := rfl
  cfg_inst_seq_num := rfl
  orphaned_objects := rfl
theorem topological_order (db : Db) (head : Option Nat) : Agree g db {db with topological_order := head} :=
  ⟨fun _ => rfl,rfl,rfl,rfl,rfl,rfl,rfl⟩
theorem core_of (agree : Agree unnumbered db db') : Agree core db db' := agree.comp core fun _ => rfl
theorem unnumbered_of (agree : Agree unordered db db') : Agree unnumbered db db' := agree.comp unnumbered fun _ => rfl
end Agree

@[simp] theorem setObj_get (db : Db) (a b : Nat) (f : CfgObject → CfgObject) :
    (db.setObj a f).objs.get b = if b = a then (db.objs.get a).map f else db.objs.get b := Heap.get_modify ..

section
variable {db db' : Db} {obj : Nat}

theorem linkNext_agree (db : Db) (p q : Option Nat) : Agree unordered db (linkNext db p q) := by
  cases p with
  | none => exact Agree.topological_order ..
  | some p => exact Agree.setObj _ p fun _ => rfl
theorem linkPrev_agree (db : Db) (p q : Option Nat) : Agree unordered db (linkPrev db p q) := by
  cases p with
  | none => exact Agree.refl ..
  | some p => exact Agree.setObj _ p fun _ => rfl
/-- The cases of `moveBehind`: the object stays, or it is unlinked and put between two others. -/
theorem moveBehind_cases (moved : moveBehind db obj = some db') : ∃ o, db.objs.get obj = some o ∧
    ((db' = db ∧ ∀ next n, o.dep_next = some next → db.objs.get next = some n →
        o.ordinal_number < n.ordinal_number) ∨
      ∃ next n prev place, o.dep_next = some next ∧ db.objs.get next = some n ∧
        n.ordinal_number ≤ o.ordinal_number ∧
        scanPrev db.objs CfgObject.dep_next (fun x => decide (x.ordinal_number > o.ordinal_number)) db.objs.size
          (some obj) o.dep_next = some (some prev,place) ∧
        db' = (linkPrev (linkNext (linkNext (linkPrev db o.dep_next o.dep_prev) o.dep_prev o.dep_next) (some prev)
          (some obj)) place (some obj)).setObj obj fun x => {x with dep_next := place,dep_prev := some prev}) := by
  unfold moveBehind at moved
  obtain ⟨o,found,moved⟩ := of_bind moved
  refine ⟨o,found,?_⟩
  cases next : o.dep_next with
  | none => grind
  | some next' =>
    simp only [next] at moved
    obtain ⟨n,there,moved⟩ := of_bind moved
    split at moved
    · rename_i notGreater
      obtain ⟨⟨prev,place⟩,scanned,moved⟩ := of_bind moved
      obtain ⟨prev,rfl,moved⟩ := of_bind moved
      exact .inr ⟨next',n,prev,place,rfl,there,notGreater,scanned,by simpa using moved.symm⟩
    · grind
theorem moveBehind_agree (moved : moveBehind db obj = some db') : Agree unordered db db' := by
  obtain ⟨o,_,⟨rfl,_⟩ | ⟨_,_,prev,place,_,_,_,_,rfl⟩⟩ := moveBehind_cases moved
  · exact Agree.refl ..
  · exact (linkPrev_agree ..).trans ((linkNext_agree ..).trans ((linkNext_agree ..).trans
      ((linkPrev_agree ..).trans (Agree.setObj _ obj fun _ => rfl))))

/-- What every step of a loop keeps, the loop keeps. -/
theorem foldlM_keeps {α σ : Type} {step : σ → α → Option σ} {R : σ → σ → Prop} (refl : ∀ s, R s s)
    (trans : ∀ {r s t}, R r s → R s t → R r t) {l : List α}
    (each : ∀ s t, ∀ x ∈ l, step s x = some t → R s t) {s t : σ} (all : l.foldlM step s = some t) : R s t := by
  induction l generalizing s with
  | nil =>
    have same : s = t := by simpa using all
    exact same ▸ refl s
  | cons x l ih =>
    rw [foldlM_cons] at all
    obtain ⟨r,first,rest⟩ := of_bind all
    exact trans (each s r x (by simp) first) (ih (fun s t x member => each s t x (by simp [member])) rest)

theorem setOrdinal_agree (db : Db) (a n : Nat) : Agree unnumbered db (setOrdinal db a n) :=
  Agree.setObj _ a fun _ => rfl
theorem put_agree {fuel : Nat} (put : cfg_put_in_order_dep fuel db obj = some db') : Agree unnumbered db db' := by
  induction fuel generalizing db db' obj with
  | zero => cases put
  | succ fuel ih =>
    unfold cfg_put_in_order_dep at put
    obtain ⟨moved,move,put⟩ := of_bind put
    obtain ⟨o,_,put⟩ := of_bind put
    refine (moveBehind_agree move).unnumbered_of.trans ?_
    refine foldlM_keeps (Agree.refl _) Agree.trans (fun s t dep _ step => ?_) put
    obtain ⟨o,_,step⟩ := of_bind step
    obtain ⟨d,_,step⟩ := of_bind step
    split at step
    · exact (setOrdinal_agree ..).trans (ih step)
    · simp only [some_inj] at step
      exact step ▸ Agree.refl ..
end

section
variable {db db' : Db} {master obj : Nat} {wide : Bool}

/-- The parts of `cfg_create_dep`. -/
theorem create_cases (created : cfg_create_dep db master obj wide = some db') :
    (dependantOf db master obj = some none ∧ db' = db) ∨
    ∃ dep m moved o m' dependants, dependantOf db master obj = some (some dep) ∧ db.objs.get master = some m ∧
      cfg_put_in_order_dep db.objs.size (recordMaster db dep master m wide) dep = some moved ∧
      moved.objs.get dep = some o ∧ moved.objs.get master = some m' ∧
      insertDependant moved o.oid ⟨dep,wide⟩ m'.dependants = some dependants ∧
      db' = setDependants moved master dependants := by
  unfold cfg_create_dep at created
  obtain ⟨dep,target,created⟩ := of_bind created
  cases dep with
  | none => exact .inl ⟨target,by simpa using created.symm⟩
  | some dep =>
    obtain ⟨m,master,created⟩ := of_bind created
    obtain ⟨moved,put,created⟩ := of_bind created
    obtain ⟨o,there,created⟩ := of_bind created
    obtain ⟨m',still,created⟩ := of_bind created
    obtain ⟨dependants,inserted,created⟩ := of_bind created
    exact .inr ⟨dep,m,moved,o,m',dependants,target,master,put,there,still,inserted,by simpa using created.symm⟩
theorem recordMaster_agree (db : Db) (obj master : Nat) (m : CfgObject) (wide : Bool) :
    Agree core db (recordMaster db obj master m wide) := Agree.setObj _ obj fun _ => rfl
theorem setDependants_agree (db : Db) (a : Nat) (l : List CfgDependency) : Agree core db (setDependants db a l) :=
  Agree.setObj _ a fun _ => rfl
theorem setDependsOn_agree (db : Db) (a : Nat) (l : List CfgDependency) : Agree core db (setDependsOn db a l) :=
  Agree.setObj _ a fun _ => rfl
theorem create_agree (created : cfg_create_dep db master obj wide = some db') : Agree core db db' := by
  obtain ⟨_,rfl⟩ | ⟨dep,m,moved,o,m',dependants,_,_,put,_,_,_,rfl⟩ := create_cases created
  · exact Agree.refl ..
  · exact (recordMaster_agree ..).trans ((put_agree put).core_of.trans (setDependants_agree ..))

theorem adopt_agree {oid : CfgOid} {orphans kept : List CfgOrphan}
    (adopted : adopt master oid orphans db = some (db',kept)) : Agree core db db' ∧ kept.Sublist orphans := by
  induction orphans generalizing db db' kept with
  | nil =>
    simp only [adopt,some_inj,Prod.mk.injEq] at adopted
    obtain ⟨rfl,rfl⟩ := adopted
    exact ⟨Agree.refl ..,List.Sublist.refl _⟩
  | cons orphan rest ih =>
    unfold adopt at adopted
    obtain ⟨m,_,adopted⟩ := of_bind adopted
    split at adopted
    · obtain ⟨next,created,adopted⟩ := of_bind adopted
      obtain ⟨later,sub⟩ := ih adopted
      exact ⟨(create_agree created).trans later,sub.cons _⟩
    · obtain ⟨⟨next,kept'⟩,rest,adopted⟩ := of_bind adopted
      obtain ⟨rfl,rfl⟩ := of_pair adopted
      obtain ⟨later,sub⟩ := ih rest
      exact ⟨later,sub.cons_cons _⟩
end
end TestEnvironment.Configurator
