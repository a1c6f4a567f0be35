import TestEnvironment.Configurator.Steps

/-!
The database that `cfg_db_init` makes of the names of the agents, and the
databases that runs of operations reach from it.
-/
namespace TestEnvironment.Configurator
open Lib

/-- The names of the agents as RCF gives them: different, and without slashes. -/
structure AgentNames (tas : List CStr) : Prop where
  plain : ∀ ta ∈ tas, '/' ∉ ta
  distinct : tas.Nodup

section
/-- The sons of the reserved objects. -/
def reservedKids : Nat → List Nat
  | 0 => [1,6]
  | 1 => [2]
  | 2 => [3,4,5]
  | 6 => [7]
  | _ => []

theorem reserved_get (a : Nat) : emptyDb.objs.get a = reservedObjects[a]? := by
  simp only [emptyDb,Heap.get,getElem?_map]
  cases reservedObjects[a]? <;> rfl
theorem reserved_lt {a : Nat} {o : CfgObject} (found : emptyDb.objs.get a = some o) : a < 8 := Heap.lt_size found

theorem emptyDb_objTree : ObjTree emptyDb reservedKids := by
  refine ⟨⟨?_,?_,?_,?_,?_,?_⟩,?_,?_,?_,?_,?_,?_⟩
  · exact ⟨_,rfl,rfl,rfl⟩
  · intro a k found
    obtain ⟨o,there,rfl⟩ := objLinks_some found
    have small := reserved_lt there
    rw [reserved_get] at there
    interval_cases a <;> cases there
    · exact .cons rfl (.cons rfl .nil)
    · exact .cons rfl .nil
    · exact .cons rfl (.cons rfl (.cons rfl .nil))
    · exact .nil
    · exact .nil
    · exact .nil
    · exact .cons rfl .nil
    · exact .nil
  · intro a missing
    by_cases small : a < 8
    · interval_cases a <;> cases missing
    · unfold reservedKids
      split <;> first | rfl | omega
  · intro a b member
    unfold reservedKids at member
    split at member <;> simp at member
    · rcases member with rfl | rfl <;> exact ⟨_,rfl,rfl⟩
    · subst member; exact ⟨_,rfl,rfl⟩
    · rcases member with rfl | rfl | rfl <;> exact ⟨_,rfl,rfl⟩
    · subst member; exact ⟨_,rfl,rfl⟩
  · intro b k found
    obtain ⟨o,there,rfl⟩ := objLinks_some found
    have small := reserved_lt there
    rw [reserved_get] at there
    interval_cases b <;> cases there
    · exact .inl rfl
    all_goals exact .inr ⟨_,rfl,by decide⟩
  · intro a b member
    unfold reservedKids at member
    split at member <;> simp at member <;> omega
  · exact ⟨_,rfl,rfl,rfl,by decide⟩
  · intro a f o p found up foundF
    have small := reserved_lt found
    rw [reserved_get] at found foundF
    interval_cases a <;> cases found <;> cases up <;> cases foundF <;> decide
  · intro a o found notRoot
    have small := reserved_lt found
    rw [reserved_get] at found
    interval_cases a <;> cases found
    · exact absurd rfl notRoot
    all_goals decide
  · intro f a b x y inA inB foundA foundB same
    have smallA := reserved_lt foundA
    have smallB := reserved_lt foundB
    rw [reserved_get] at foundA foundB
    have other : ∀ i < 8, ∀ j < 8, (reservedObjects[i]?).map CfgObject.subid = (reservedObjects[j]?).map CfgObject.subid →
        i = j := by decide
    exact other a smallA b smallB (by rw [foundA,foundB]; simp [same])
  · intro a o found
    have small := reserved_lt found
    rw [reserved_get] at found
    interval_cases a <;> cases found <;> exact ⟨by decide,rfl⟩
  · intro i a there
    have table : CFG_GET_OBJ emptyDb i = if i < 8 then some i else none := by
      unfold CFG_GET_OBJ emptyDb
      by_cases small : i < 8
      · rw [if_pos small]
        interval_cases i <;> rfl
      · rw [if_neg small]
        simp only [CFG_OBJ_HANDLE_NUM_RSRVD]
        rw [List.getElem?_append_right (by simpa using small),List.getElem?_replicate]
        split <;> rfl
    rw [table] at there
    split at there
    · rename_i small
      cases there
      interval_cases i <;> exact ⟨_,rfl,rfl⟩
    · cases there

theorem emptyDb_instTree : InstTree emptyDb fun _ => [] := by
  have only : ∀ {a i}, emptyDb.insts.get a = some i → a = 0 ∧ i = rootInstance := by
    intro a i found
    have small : a < 1 := Heap.lt_size found
    have zero : a = 0 := by omega
    subst zero
    exact ⟨rfl,(some.inj found).symm⟩
  refine ⟨⟨?_,?_,?_,?_,?_,?_⟩,?_,?_,?_,?_,?_,?_,?_,?_⟩
  · exact ⟨_,rfl,rfl,rfl⟩
  · intro a k found
    obtain ⟨i,there,rfl⟩ := instLinks_some found
    obtain ⟨_,rfl⟩ := only there
    exact .nil
  · exact fun _ => rfl
  · exact fun member => absurd member (by simp)
  · intro b k found
    obtain ⟨i,there,_⟩ := instLinks_some found
    exact .inl (only there).1
  · exact fun member => absurd member (by simp)
  · exact ⟨_,rfl,rfl,rfl,rfl,rfl,rfl⟩
  · intro a f i p found up
    obtain ⟨_,rfl⟩ := only found
    cases up
  · exact fun found notRoot => absurd (only found).1 notRoot
  · intro j a there
    cases j with
    | zero => exact .inl ⟨(some.inj there).symm,rfl⟩
    | succ j => grind [emptyDb]
  · rfl
  · exact fun found notRoot => absurd (only found).1 notRoot
  · exact ⟨by decide,fun _ => rfl⟩
  · simp [emptyDb,CFG_INST_NUM]
end

section
/-- After the loop over the names `names`: one instance each, in their order. -/
structure AgentsAdded (base db : Db) (names : List CStr) (kids : Nat → List Nat) : Prop where
  objs : db.objs = base.objs
  cfg_all_obj : db.cfg_all_obj = base.cfg_all_obj
  orphaned_objects : db.orphaned_objects = base.orphaned_objects
  topological_order : db.topological_order = base.topological_order
  tree : InstTree db kids
  sons : kids cfg_inst_root = List.range' 1 names.length
  size : db.insts.size = names.length+1
  length : db.cfg_all_inst.length = CFG_INST_NUM
  slots : ∀ j : Nat, (db.cfg_all_inst[j]?).join = if j ≤ names.length then some j else none
  named : ∀ {a x}, db.insts.get a = some x → a ≠ cfg_inst_root → x.remove = false ∧
    ∃ ta, names[a-1]? = some ta ∧ x.oid = CFG_TA_PREFIX ++ ta

variable {base db db' : Db} {names tas : List CStr} {kids : Nat → List Nat} {ta : CStr}

section
variable (added : AgentsAdded base db names kids)
include added
/-- A step of the loop links an instance behind the last one. -/
theorem addAgents_cons (room : names.length+1 < CFG_INST_NUM) : addAgents (names.length+1) db (ta :: tas) =
      (linkInstance db db.cfg_all_inst (names.length+1) cfg_inst_root (List.range' 1 names.length).getLast?
        cfg_obj_agent (CFG_TA_PREFIX ++ ta) ta .none).bind fun (db,_) => addAgents (names.length+2) db tas := by
  obtain ⟨r,root,_⟩ := added.tree.root
  have fits : ¬ names.length+1 ≥ db.cfg_all_inst.length := by rw [added.length]; omega
  have slot : ((db.cfg_all_inst.set (names.length+1) (some db.insts.size))[names.length]?).join = some names.length := by simp [added.slots]
  rw [addAgents,if_neg fits]
  simp only [CFG_NEW_INST_HANDLE,Heap.fresh_eq_size,Nat.add_sub_cancel,slot,bind_eq_bind,bind_some]
  rcases eq_nil_or_concat names with rfl | ⟨front,last,rfl⟩
  · have first : r.son = none := by
      rw [added.tree.forest.son_eq (instLinks_eq root),added.sons]; rfl
    simp [linkInstance,CFG_NEW_INST_HANDLE,root,first,Db.setInst]
    rfl
  · have length : (front.concat last).length = front.length+1 := by simp
    simp only [length]
    have sons : kids cfg_inst_root = List.range' 1 front.length ++ [front.length+1] := by
      rw [added.sons,length,List.range'_concat]; simp [Nat.add_comm]
    obtain ⟨k,live,_⟩ := added.tree.forest.kid (by rw [sons]; simp : front.length+1 ∈ kids cfg_inst_root)
    obtain ⟨q,found,rfl⟩ := instLinks_some live
    have alone : q.brother = none := added.tree.forest.brother_eq (List.range' 1 front.length) sons live
    have isLast : (List.range' 1 (front.length+1)).getLast? = some (front.length+1) := by
      rw [List.range'_concat]; simp [Nat.add_comm]
    simp [linkInstance,CFG_NEW_INST_HANDLE,isLast,found,alone,Db.setInst]

theorem firstSlot (room : names.length+1 < CFG_INST_NUM) :
    takeSlot db.cfg_all_inst CFG_INST_NUM = some (names.length+1,db.cfg_all_inst) := by
  have inside : names.length+1 < db.cfg_all_inst.length := by rw [added.length]; exact room
  have full : ∀ j : Nat, (bound : j < db.cfg_all_inst.length) →
      (db.cfg_all_inst[j]).isNone = decide (¬ j ≤ names.length) := by
    intro j bound
    have slot := added.slots j
    rw [getElem?_eq_getElem bound] at slot
    have entry : db.cfg_all_inst[j] = if j ≤ names.length then some j else none := by simpa using slot
    rw [entry]
    split <;> simp [*]
  have first : db.cfg_all_inst.findIdx Option.isNone = names.length+1 := by grind
  have small : ¬ names.length+1 > CFG_HANDLE_MAX_INDEX := by
    unfold CFG_INST_NUM at room; unfold CFG_HANDLE_MAX_INDEX; omega
  simp only [takeSlot,first]
  rw [if_neg small,if_neg (ne_of_lt inside)]

theorem addAgents_step (plain : '/' ∉ ta) (agent : ∃ o,
      base.objs.get cfg_obj_agent = some o ∧ o.father = some cfg_obj_root ∧ o.subid = "agent".toList)
    (room : names.length+1 < CFG_INST_NUM) {a : Nat}
    (linked : linkInstance db db.cfg_all_inst (names.length+1) cfg_inst_root (List.range' 1 names.length).getLast?
        cfg_obj_agent (CFG_TA_PREFIX ++ ta) ta .none = some (db',a)) :
    ∃ kids', AgentsAdded base db' (names ++ [ta]) kids' := by
  obtain ⟨r,root,oid,_,obj,_⟩ := added.tree.root
  obtain ⟨o,object,up,subid⟩ := agent
  have comps : components (CFG_TA_PREFIX ++ ta) = components r.oid ++ [⟨o.subid,ta⟩] := by
    have top : components r.oid = [] := by rw [oid]; rfl
    have shape : CFG_TA_PREFIX ++ ta = '/' :: ("agent".toList ++ ':' :: ta) := rfl
    have notRoot : CFG_TA_PREFIX ++ ta ≠ "/:".toList := by rw [shape]; simp
    have token : '/' ∉ "agent".toList ++ ':' :: ta := by simp [plain]
    have cut : strchr ':' ("agent".toList ++ ':' :: ta) = some ("agent".toList,ta) := strchr_append (by decide) ta
    rw [components_cons notRoot,shape,strtok_delimiter,strtok_token token (by simp),top,subid]
    simp only [map_cons,map_nil,nil_append]
    rw [element,cut]
  obtain ⟨⟨brother,grown⟩,tree'⟩ := linkInstance_tree added.tree root
    (show kids cfg_inst_root = List.range' 1 names.length ++ [] by rw [added.sons]; simp) rfl (firstSlot added room) (by rw [added.objs]; exact object) (by rw [up,obj]) comps linked
  have isNew : a = names.length+1 := grown.fresh.trans added.size
  refine ⟨_,grown.objs.trans added.objs,grown.cfg_all_obj.trans added.cfg_all_obj,
    grown.orphaned_objects.trans added.orphaned_objects,grown.topological_order.trans added.topological_order,tree',
    ?_,?_,?_,?_,?_⟩
  · grind [List.range'_concat]
  · rw [grown.size,added.size]; simp
  · obtain ⟨_,_,_,_,_,rfl⟩ := linkInstance_cases linked
    simp [added.length]
  · intro j
    rw [grown.slots,added.slots]
    simp only [length_append,length_singleton]
    by_cases here : j = names.length+1
    · simp [here,isNew]
    · simp only [here,if_false]
      split <;> split <;> first | rfl | omega
  · intro b x found notRoot
    rcases grown.backward found with ⟨isA,same⟩ | ⟨_,y,old,same,_⟩
    · refine ⟨unlinked_remove same,ta,?_,unlinked_oid same⟩
      simp [isA,isNew]
    · obtain ⟨stays,ta',named,oid'⟩ := added.named old notRoot
      have bound := List.getElem?_eq_some_iff.mp named
      refine ⟨(unlinked_remove same).symm.trans stays,ta',?_,(unlinked_oid same).symm.trans oid'⟩
      rw [getElem?_append_left bound.1]; exact named

theorem addAgents_spec {rest : List CStr} (plain : ∀ ta ∈ rest, '/' ∉ ta)
    (agent : ∃ o, base.objs.get cfg_obj_agent = some o ∧ o.father = some cfg_obj_root ∧ o.subid = "agent".toList)
    (done : addAgents (names.length+1) db rest = some db') : ∃ kids', AgentsAdded base db' (names ++ rest) kids' := by
  induction rest generalizing db names kids with
  | nil => grind [addAgents]
  | cons ta rest ih =>
    by_cases room : names.length+1 < CFG_INST_NUM
    · rw [addAgents_cons added room] at done
      obtain ⟨⟨db1,a⟩,linked,done⟩ := of_bind done
      obtain ⟨kids1,added1⟩ := addAgents_step added (plain ta (by simp)) agent room linked
      obtain ⟨kids',all⟩ := ih added1 (fun t member => plain t (by simp [member])) (by simpa using done)
      exact ⟨kids',by simpa using all⟩
    · rw [addAgents,if_pos (by rw [added.length]; omega)] at done
      cases done
end
/-- The loop does not touch the objects. -/
theorem addAgents_objs {i : Nat} (done : addAgents i db tas = some db') : db'.objs = db.objs ∧
    db'.orphaned_objects = db.orphaned_objects ∧ db'.topological_order = db.topological_order := by
  induction tas generalizing db i with
  | nil =>
    have same : db = db' := by simpa [addAgents] using done
    exact same ▸ ⟨rfl,rfl,rfl⟩
  | cons ta tas ih =>
    rw [addAgents] at done
    split at done
    · cases done
    · obtain ⟨prev,_,done⟩ := of_bind done
      obtain ⟨objs,orphans,head⟩ := ih done
      rw [objs,orphans,head]
      split <;> exact ⟨rfl,rfl,rfl⟩
end

section
variable {tas : List CStr} {db : Db}

/-- The three dependencies of the reserved objects. -/
theorem cfg_db_init_cases (initialised : cfg_db_init tas = some db) : ∃ db1, Agree core emptyDb db1 ∧
    (do let db ← cfg_create_dep emptyDb 2 3 true
        let db ← cfg_create_dep db 2 4 true
        cfg_create_dep db 2 5 true) = some db1 ∧ addAgents 1 db1 tas = some db := by
  unfold cfg_db_init at initialised
  obtain ⟨dbA,first,initialised⟩ := of_bind initialised
  obtain ⟨dbB,second,initialised⟩ := of_bind initialised
  obtain ⟨dbC,third,initialised⟩ := of_bind initialised
  split at initialised
  · refine ⟨dbC,(create_agree first).trans ((create_agree second).trans (create_agree third)),?_,initialised⟩
    simp [first,second,third]
  · cases initialised

theorem cfg_db_init_spec (names : AgentNames tas) (initialised : cfg_db_init tas = some db) :
    ∃ db1 kids, Agree core emptyDb db1 ∧ ObjTree db reservedKids ∧ AgentsAdded db1 db tas kids := by
  obtain ⟨db1,agree,_,agents⟩ := cfg_db_init_cases initialised
  have start : AgentsAdded db1 db1 [] fun _ => [] := by
    refine ⟨rfl,rfl,rfl,rfl,emptyDb_instTree.agree agree,rfl,?_,?_,?_,?_⟩
    · rw [agree.insts]; rfl
    · rw [agree.cfg_all_inst]; rfl
    · intro j
      rw [agree.cfg_all_inst]
      cases j with
      | zero => rfl
      | succ j => grind [emptyDb]
    · intro a x found notRoot
      rw [agree.insts] at found
      have small : a < 1 := Heap.lt_size found
      exact absurd (Nat.lt_one_iff.mp small) notRoot
  obtain ⟨o,object,same⟩ := agree.forward (a := cfg_obj_agent) (x := reservedObjects[1]) rfl
  obtain ⟨kids,all⟩ := addAgents_spec start names.plain
    ⟨o,object,(core_father same).trans rfl,(core_subid same).trans rfl⟩ agents
  exact ⟨db1,kids,agree,(emptyDb_objTree.agree agree).of_same all.objs all.cfg_all_obj,all⟩

theorem cfg_db_init_trees (names : AgentNames tas) (initialised : cfg_db_init tas = some db) : Trees db := by
  obtain ⟨_,kids,_,objTree,all⟩ := cfg_db_init_spec names initialised
  exact ⟨_,kids,objTree,all.tree⟩
end

section
variable [Libc]

/-- The databases that runs of operations reach whose steps all meet `ok`. -/
def DbReach (ok : Db → DbOp → Prop) : Db → Prop :=
  Reach (fun db => ∃ tas, AgentNames tas ∧ cfg_db_init tas = some db)
    (fun db op db' => ∃ rc, dbStep db op = some (db',rc)) ok
/-- Any operation at any time. -/
def anyStep : Db → DbOp → Prop := fun _ _ => True

/-- Every reachable database has both trees. -/
theorem DbReach.trees {ok : Db → DbOp → Prop} {db : Db} (reached : DbReach ok db) : Trees db :=
  Reach.invariant (fun _ ⟨_,names,initialised⟩ => cfg_db_init_trees names initialised)
    (fun _ _ _ trees _ ⟨_,step⟩ => dbStep_trees trees step) reached

/-- Several operations, whatever their status. -/
def dbRun (db : Db) (ops : List DbOp) : Option Db := ops.foldlM (fun db op => (dbStep db op).map Prod.fst) db

theorem dbRun_reach {ok : Db → DbOp → Prop} (free : ∀ db op, ok db op) {db db' : Db} {ops : List DbOp}
    (start : DbReach ok db) (run : dbRun db ops = some db') : DbReach ok db' := by
  induction ops generalizing db with
  | nil =>
    have same : db = db' := by simpa [dbRun] using run
    exact same ▸ start
  | cons op ops ih =>
    unfold dbRun at run
    rw [foldlM_cons] at run
    obtain ⟨db1,first,rest⟩ := of_bind run
    obtain ⟨⟨db2,rc⟩,step,rfl⟩ := of_map first
    exact ih (.step start (free ..) ⟨rc,step⟩) rest

/-- The database of a Configurator without agents. -/
def startDb : Db := (cfg_db_init []).getD emptyDb
theorem startDb_reach {ok : Db → DbOp → Prop} : DbReach ok startDb := .start ⟨[],⟨by simp,by simp⟩,by decide +kernel⟩
/-- Requests with the usual options. -/
def plainRegister (oid : String) (type : CfgValType) (access : CfgAccess) : DbOp :=
  .register ⟨oid.toList,none,type,access,false,false,false,false⟩
def plainAdd (oid : String) : DbOp := .add oid.toList .none .none
omit [Libc] in
/-- A run from the empty database, without floating point numbers and addresses. -/
def plainRun (ops : List DbOp) : Option Db := @dbRun plainLibc startDb ops
omit [Libc] in
theorem plainRun_reach {db : Db} {ops : List DbOp} (run : plainRun ops = some db) : @DbReach plainLibc anyStep db :=
  @dbRun_reach plainLibc _ (fun _ _ => trivial) _ _ _ (@startDb_reach plainLibc _) run
end
end TestEnvironment.Configurator
