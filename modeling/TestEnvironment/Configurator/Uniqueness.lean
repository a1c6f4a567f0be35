import TestEnvironment.Configurator.Handles

/-!
Instances with the same OID. `cfg_db_add` looks for its OID among the brothers
up to the first one that is not smaller, but automatic children are put before
all their brothers; so an instance with the OID is missed behind a greater one.
Nor does the lookup of the father enter an instance that is scheduled for
removal, below which instances with the OID may be left. `OidsApart` is the
condition on a step under which no OID is given out twice.
-/
namespace TestEnvironment.Configurator
open Lib

section
variable (db : Db)

/-- The instance `x` at `a` is not scheduled for removal. -/
def Stays (a : Nat) (x : CfgInstance) : Prop := db.insts.get a = some x ∧ x.remove = false
/-- No two instances that stay have the same OID. -/
def UniqueOids : Prop := ∀ ⦃a b x y⦄, Stays db a x → Stays db b y → x.oid = y.oid → a = b
/-- The instance `b` stands before `a` in the list of their father. -/
def Before : Nat → Nat → Prop := Relation.TransGen fun b a => brotherOf (instLinks db) b = some (some a)

/-- `cfg_db_add` takes the OID and the type and looks for the OID among the sons of `f`. -/
def SearchedBelow (oid : CStr) (type : CfgValType) (f : Nat) : Prop :=
  ∃ id obj fi o s prev next, AddPlace db oid type id f obj fi o s prev next
/-- An instance with the OID is a son of `f`, and no brother before it has a greater OID. -/
structure InSight (oid : CStr) (f : Nat) : Prop where
  father : ∀ {a x}, Stays db a x → x.oid = oid → x.father = some f
  order : ∀ {a b x y}, Stays db a x → x.oid = oid → Stays db b y → Before db b a → strLess oid y.oid = false
/-- Where nothing with the OID stays, nothing below it does, unless the new
    instance is an agent's and gets no automatic children. -/
def NothingBelow (oid : CStr) : Prop :=
  (∀ a x, Stays db a x → x.oid ≠ oid) → startsWith CFG_TA_PREFIX oid = false →
    ∀ a x, Stays db a x → ¬ (oid ++ ['/']) <+: x.oid
def AddsOnce (oid : CStr) (type : CfgValType) : Prop :=
  ∀ f, SearchedBelow db oid type f → InSight db oid f ∧ NothingBelow db oid

/-- The loop of `cfg_db_find` misses the last element only, below a local addition. -/
def ChildMissing (oid : CStr) : Prop := ∃ id last, cfg_convert_oid_str oid = some id ∧ id.inst = true ∧
  findInst db id.ids (some cfg_inst_root) none false = some (none,true,last,true)

/-- The new object gets instances at once. -/
def automatic (msg : CfgRegisterMsg) : Prop :=
  msg.access = .read_only ∨ (msg.access = .read_write ∧ msg.val_type ≠ .double)
/-- No two instances of the father of an object that gets instances at once have
    the same OID, not even such that are scheduled for removal. -/
def RegistersOnce (msg : CfgRegisterMsg) : Prop :=
  automatic msg → ∀ oid f fo id i table, RegisterPlace db msg oid f fo id i table →
    ∀ a b x y, db.insts.get a = some x → db.insts.get b = some y → x.obj = f → y.obj = f → x.oid = y.oid → a = b

def OidsApart : DbOp → Prop
  | .register msg => RegistersOnce db msg
  | .add oid type _ => AddsOnce db oid type
  | .find oid => ChildMissing db oid → AddsOnce db oid .none
  | .add_dependency msg => ChildMissing db msg.oid → AddsOnce db msg.oid .none
  | .remove _ remove => remove = true
  | _ => True
end

variable {g : CfgInstance → CfgInstance}

section
variable {db db' : Db} {P : CStr → Prop}

variable (unique : UniqueOids db)
include unique
theorem UniqueOids.back (back : ∀ {a x'}, Stays db' a x' → ∃ x, Stays db a x ∧ x.oid = x'.oid) : UniqueOids db' := by
  intro a b x' y' stays stays' same
  obtain ⟨x,before,oid⟩ := back stays
  obtain ⟨y,before',oid'⟩ := back stays'
  exact unique before before' (by rw [oid,oid',same])
theorem UniqueOids.of_insts (insts : db'.insts = db.insts) : UniqueOids db' :=
  unique.back fun stays => ⟨_,⟨insts ▸ stays.1,stays.2⟩,rfl⟩
theorem UniqueOids.pruned {dead : Nat → Prop} (pruned : Pruned db db' dead) : UniqueOids db' :=
  unique.back fun stays => by
    obtain ⟨_,x,found,same,_⟩ := pruned.backward stays.1
    exact ⟨x,⟨found,(unlinked_remove same).trans stays.2⟩,unlinked_oid same⟩
/-- Changes of values and flags, except the one that takes back a removal. -/
theorem UniqueOids.setInst {a : Nat}
    (oid : ∀ x, (g x).oid = x.oid) (remove : ∀ x, (g x).remove = false → x.remove = false) : UniqueOids (db.setInst a g) :=
  unique.back fun {b x'} stays => by
    have found := stays.1
    simp only [Db.setInst,Heap.get_modify] at found
    by_cases here : b = a
    · rw [if_pos here] at found
      obtain ⟨x,there,rfl⟩ := of_map found
      exact ⟨x,⟨here ▸ there,remove x stays.2⟩,(oid x).symm⟩
    · rw [if_neg here] at found
      exact ⟨x',⟨found,stays.2⟩,rfl⟩
/-- New instances with different OIDs that no old one has. -/
theorem UniqueOids.grown (ext : Ext db db') (fresh : Fresh db db' P)
    (apart : ∀ a x, Stays db a x → ¬ P x.oid) : UniqueOids db' := by
  have kind : ∀ {a x}, Stays db' a x → (db.insts.size ≤ a ∧ P x.oid) ∨ ∃ y, Stays db a y ∧ y.oid = x.oid := by
    intro a x stays
    by_cases new : db.insts.size ≤ a
    · exact .inl ⟨new,(fresh.each new stays.1).2⟩
    · obtain ⟨y,found,same,_⟩ := ext.back stays.1 (not_le.mp new)
      exact .inr ⟨y,⟨found,(unlinked_remove same).symm.trans stays.2⟩,(unlinked_oid same).symm⟩
  intro a b x y stays stays' same
  rcases kind stays with ⟨new,has⟩ | ⟨x0,before,oid⟩ <;> rcases kind stays' with ⟨new',has'⟩ | ⟨y0,before',oid'⟩
  · exact fresh.distinct new new' stays.1 stays'.1 same
  · exact absurd (by rw [oid',← same]; exact has) (apart b y0 before')
  · exact absurd (by rw [oid,same]; exact has') (apart a x0 before)
  · exact unique before before' (by rw [oid,oid',same])
end

section
variable {db : Db} {kids : Nat → List Nat} {f a b : Nat} {x : CfgInstance}

theorem before_of_split (tree : InstTree db kids) {pre mid post : List Nat}
    (split : kids f = pre ++ b :: (mid ++ a :: post)) : Before db b a := by
  induction mid generalizing pre b with
  | nil =>
    obtain ⟨k,found,_⟩ := tree.forest.kid (by rw [split]; simp : b ∈ kids f)
    refine .single ?_
    rw [brotherOf,found,map_some,tree.forest.brother_eq pre split found]
    rfl
  | cons c mid ih =>
    obtain ⟨k,found,_⟩ := tree.forest.kid (by rw [split]; simp : b ∈ kids f)
    have later : kids f = (pre ++ [b]) ++ c :: (mid ++ a :: post) := by rw [split]; simp
    refine .head (b := c) ?_ (ih later)
    rw [brotherOf,found,map_some,tree.forest.brother_eq pre split found]
    rfl

/-- The scan of the sons of `f` ends at an instance with the OID if there is one in sight. -/
theorem InSight.found (tree : InstTree db kids) {oid : CStr} (sight : InSight db oid f) (stays : Stays db a x)
    (same : x.oid = oid) : ∃ c y, ((kids f).dropWhile fun a => !testAt db.insts (stopsAt oid) a).head? = some c ∧
      db.insts.get c = some y ∧ y.oid = oid := by
  have member : a ∈ kids f := by
    rcases tree.father_of stays.1 with ⟨_,noFather⟩ | ⟨f',_,up,_,member⟩
    · rw [sight.father stays same] at noFather; cases noFather
    · have equal : f' = f := some.inj (up.symm.trans (sight.father stays same))
      exact equal ▸ member
  have stops : testAt db.insts (stopsAt oid) a = true := by
    simp [testAt,stays.1,stopsAt,same,strLess_irrefl,stays.2]
  cases rest : (kids f).dropWhile fun a => !testAt db.insts (stopsAt oid) a with
  | nil => simp_all
  | cons c behind =>
    have split := (takeWhile_append_dropWhile
      (p := fun a => !testAt db.insts (stopsAt oid) a) (l := kids f)).symm
    rw [rest] at split
    have stopsC : testAt db.insts (stopsAt oid) c = true := by
      have head := List.head?_dropWhile_not (fun a => !testAt db.insts (stopsAt oid) a) (kids f)
      rw [rest] at head
      simpa using head
    obtain ⟨y,found,hit⟩ := testAt_some stopsC
    simp only [stopsAt,Bool.not_eq_true',Bool.or_eq_false_iff] at hit
    refine ⟨c,y,rfl,found,?_⟩
    rw [split,mem_append,mem_cons] at member
    rcases member with passed | rfl | later
    · simpa [stops] using List.mem_takeWhile_imp passed
    · rw [← same,some.inj (found.symm.trans stays.1)]
    · obtain ⟨mid,post,parts⟩ := append_of_mem later
      rw [parts] at split
      have notGreater := sight.order stays same ⟨found,hit.2⟩ (before_of_split tree split)
      by_contra different
      rw [strLess_of_not hit.1 different] at notGreater
      cases notGreater
end

section
variable [Libc] {db db' : Db} {okids kids : Nat → List Nat} {oid : CStr} {type : CfgValType} {val : CfgInstVal}
  {rc : Rc} {handle f a : Nat} {x : CfgInstance}

/-- An instance with the OID that is in sight is reported. -/
theorem InSight.exist (objTree : ObjTree db okids) (tree : InstTree db kids) (searched : SearchedBelow db oid type f)
    (sight : InSight db oid f) (stays : Stays db a x) (same : x.oid = oid) :
    cfg_db_add db oid type val = some (db,te .EEXIST,0) := by
  obtain ⟨id,obj,fi,o,s,prev,next,place⟩ := searched
  obtain ⟨_,_,_,_,_,_,nextEq⟩ := place.tree objTree tree
  obtain ⟨c,y,head,found,oidY⟩ := sight.found tree stays same
  obtain ⟨fobj,fatherObj,scanned⟩ := place.object
  have typed : ¬ (o.type ≠ type ∧ type ≠ .none) := fun ⟨other,given⟩ => place.typed.elim other given
  have search := place.place
  rw [nextEq,head] at search
  simp only [cfg_db_add,place.convert,place.inst,place.father,place.found,fatherObj,place.last,scanned,place.there,
    search,sameOid,found,bind_eq_bind,bind_some,map_some,oidY,not_true,if_false,decide_true,if_true]
  rw [if_neg typed]

theorem cfg_db_add_unique (objTree : ObjTree db okids) (tree : InstTree db kids) (unique : UniqueOids db)
    (once : AddsOnce db oid type) (added : cfg_db_add db oid type val = some (db',rc,handle)) : UniqueOids db' := by
  have spec := cfg_db_add_spec objTree tree added
  cases cfg_db_add_cases added with
  | refused => exact unique
  | exist => exact unique
  | noRoom _ _ table =>
    rcases table with rfl | ⟨_,_,_,rfl⟩
    · exact unique
    · exact unique.of_insts rfl
  | linked place other =>
    obtain ⟨sight,nothing⟩ := once _ ⟨_,_,_,_,_,_,_,place⟩
    obtain ⟨_,_,_,_,_,_,nextEq⟩ := place.tree objTree tree
    have absent : ∀ a x, Stays db a x → x.oid ≠ oid := by
      intro a x stays same
      obtain ⟨c,y,head,found,oidY⟩ := sight.found tree stays same
      exact other c y (nextEq.trans head) found oidY
    obtain ⟨_,ext,fresh,_⟩ := spec
    refine unique.grown ext fresh ?_
    rintro a x stays (same | ⟨noAgent,under⟩)
    · exact absent a x stays same
    · exact nothing absent noAgent a x stays under

/-- `cfg_db_find` leaves the database as it is unless it adds a missing child. -/
theorem cfg_db_find_adds (found : cfg_db_find db oid = some (db',rc,handle)) :
    db' = db ∨ (ChildMissing db oid ∧ cfg_db_add db oid .none .none = some (db',rc,handle)) := by
  unfold cfg_db_find at found
  cases convert : cfg_convert_oid_str oid with
  | none => grind
  | some id =>
    simp only [convert] at found
    cases inst : id.inst with
    | true =>
      rw [if_pos inst] at found
      obtain ⟨⟨tmp,atEnd,last,missing⟩,loop,found⟩ := of_bind found
      cases tmp with
      | some a =>
        obtain ⟨i,_,found⟩ := of_bind found
        simp only [some_inj,Prod.mk.injEq] at found
        exact .inl found.1.symm
      | none =>
        dsimp only at found
        split at found
        · rename_i both
          obtain ⟨rfl,rfl⟩ := (Bool.and_eq_true_iff).mp both
          obtain ⟨l,isLast,found⟩ := of_bind found
          obtain ⟨_,_,found⟩ := of_bind found
          obtain ⟨_,_,found⟩ := of_bind found
          obtain ⟨_,_,found⟩ := of_bind found
          obtain ⟨child,_,found⟩ := of_bind found
          cases child with
          | none => grind
          | some _ => exact .inr ⟨⟨id,l,convert,inst,by rw [loop,isLast]⟩,found⟩
        · grind
    | false =>
      rw [if_neg (by simp [inst])] at found
      obtain ⟨tmp,_,found⟩ := of_bind found
      cases tmp with
      | none => grind
      | some a =>
        obtain ⟨o,_,found⟩ := of_bind found
        simp only [some_inj,Prod.mk.injEq] at found
        exact .inl found.1.symm
theorem cfg_db_find_unique (objTree : ObjTree db okids) (tree : InstTree db kids) (unique : UniqueOids db)
    (once : ChildMissing db oid → AddsOnce db oid .none) (found : cfg_db_find db oid = some (db',rc,handle)) :
    UniqueOids db' := by
  rcases cfg_db_find_adds found with rfl | ⟨missing,added⟩
  · exact unique
  · exact cfg_db_add_unique objTree tree unique (once missing) added
end

section
variable {db db' : Db} {okids kids : Nat → List Nat} {a b : Nat} {par par' : CfgInstance} {o : CfgObject}
  {msg : CfgRegisterMsg} {rc : Rc}

/-- The OID of an automatic child tells the OID of its father. -/
theorem childOid_father (tree : InstTree db kids) (found : db.insts.get a = some par) (found' : db.insts.get b = some par')
    (same : childOid par o = childOid par' o) : par.oid = par'.oid := by
  rw [childOid_eq,childOid_eq] at same
  have fathers := List.append_cancel_right same
  have notEmpty : ∀ {c p}, db.insts.get c = some p → p.oid ≠ [] := by
    intro c p there empty
    obtain ⟨r,root,oid,_⟩ := tree.root
    have top : c = cfg_inst_root := (root_iff tree there).mpr (by rw [empty]; rfl)
    have equal : r = p := some.inj (root.symm.trans (top ▸ there))
    rw [← equal,oid] at empty
    cases empty
  unfold parOid at fathers
  split at fathers <;> split at fathers
  · rename_i top top'
    rw [top,top']
  · exact absurd fathers.symm (notEmpty found')
  · exact absurd fathers (notEmpty found)
  · exact fathers

variable [Libc]

theorem registerRequest_unique (objTree : ObjTree db okids) (tree : InstTree db kids) (unique : UniqueOids db)
    (once : RegistersOnce db msg) (registered : registerRequest db msg = some (db',rc)) : UniqueOids db' := by
  obtain ⟨db1,rc1,handle,first,rest⟩ := registerRequest_cases registered
  obtain ⟨⟨okids1,objTree1⟩,tree1⟩ := cfg_process_msg_register_trees objTree tree first
  have insts : db1.insts = db.insts := cfg_process_msg_register_insts first
  have unique1 := unique.of_insts insts
  rcases rest with ⟨_,rfl,_⟩ | ⟨isNew,obj,o,slot,found,⟨_,_,rfl,_⟩ | ⟨access,added⟩ | ⟨_,rfl,_⟩⟩
  · exact unique1
  · exact unique1
  · obtain ⟨oid,f,fo,id,table,o',place,slot',found',same,_⟩ := cfg_process_msg_register_new (isNew ▸ first)
    have isObj : obj = db.objs.size := some.inj (slot.symm.trans slot')
    subst isObj
    have equal : o' = o := some.inj (found'.symm.trans found)
    subst equal
    have up : o'.father = some f := core_father same
    obtain ⟨_,ext,all⟩ := addAllFrom_spec objTree1 tree1 found up added
    have isAutomatic : automatic msg := by
      have sameAccess : o'.access = msg.access := core_access same
      have sameType : o'.type = msg.val_type := core_type same
      rw [automatic,← sameAccess,← sameType]
      exact access
    refine unique1.grown ext (P := fun s => ∃ a par, db1.insts.get a = some par ∧ par.obj = f ∧ s = childOid par o')
      ⟨fun new there => ?_,fun new new' there there' sameOid => ?_⟩ ?_
    · obtain ⟨stays,_,a,par,_,parent,ofF,_,oid⟩ := all.each new there
      exact ⟨stays,a,par,parent,ofF,oid⟩
    · obtain ⟨_,_,a,par,upX,parent,ofF,_,oid⟩ := all.each new there
      obtain ⟨_,_,a',par',upY,parent',ofF',_,oid'⟩ := all.each new' there'
      have fathers := childOid_father tree1 parent parent' (by rw [← oid,← oid',sameOid])
      have one := once isAutomatic _ _ _ _ _ _ place a a' par par' (insts ▸ parent) (insts ▸ parent') ofF ofF' fathers
      exact all.distinct new new' there there' (by rw [upX,upY,one])
    · -- Its object would be the new one, which was not there before.
      rintro b y stays ⟨a,par,parent,ofF,oid⟩
      obtain ⟨oy,objectY,pathY⟩ := tree1.object objTree1 stays.1
      obtain ⟨fo',fatherObj,pathF⟩ := tree1.object objTree1 parent
      have young := Heap.lt_size place.found
      have comps : components (childOid par o') = components par.oid ++ [⟨o'.subid,[]⟩] :=
        components_childOid objTree1 found (by unfold cfg_obj_root; omega)
      have path : subids oy.oid = subids o'.oid := by
        rw [pathY,oid,objTree1.subids_son found up (ofF ▸ fatherObj),pathF,subids,comps]
        simp [subids]
      have isNew := objTree1.unique objectY found path
      obtain ⟨_,old,_⟩ := tree.object objTree (insts ▸ stays.1)
      have := Heap.lt_size old
      omega
  · exact unique1
end

section
variable {db db' : Db} {rc : Rc}

/-- The root and the agents. -/
theorem cfg_db_init_unique {tas : List CStr} (names : AgentNames tas) (initialised : cfg_db_init tas = some db) :
    UniqueOids db := by
  obtain ⟨_,kids,_,_,all⟩ := cfg_db_init_spec names initialised
  have kind : ∀ {a x}, Stays db a x → (a = cfg_inst_root ∧ x.oid = "/:".toList) ∨
      (a ≠ cfg_inst_root ∧ ∃ ta, tas[a-1]? = some ta ∧ x.oid = CFG_TA_PREFIX ++ ta) := by
    intro a x stays
    by_cases top : a = cfg_inst_root
    · obtain ⟨r,root,oid,_⟩ := all.tree.root
      have equal : r = x := some.inj (root.symm.trans (top ▸ stays.1))
      exact .inl ⟨top,equal ▸ oid⟩
    · exact .inr ⟨top,(all.named stays.1 top).2⟩
  have notRoot : ∀ ta, CFG_TA_PREFIX ++ ta ≠ "/:".toList := by
    intro ta same
    have shape : CFG_TA_PREFIX ++ ta = '/' :: 'a' :: ("gent:".toList ++ ta) := rfl
    rw [shape] at same
    cases same
  intro a b x y stays stays' same
  rcases kind stays with ⟨top,oid⟩ | ⟨below,ta,named,oid⟩ <;> rcases kind stays' with ⟨top',oid'⟩ | ⟨below',ta',named',oid'⟩
  · rw [top,top']
  · exact absurd (oid'.symm.trans (same.symm.trans oid)) (notRoot ta')
  · exact absurd (oid.symm.trans (same.trans oid')) (notRoot ta)
  · rw [oid,oid'] at same
    have agents := append_cancel_left same
    have inside := (List.getElem?_eq_some_iff.mp named).1
    have index : a-1 = b-1 := (List.getElem?_inj inside names.distinct).mp (by rw [named,named',agents])
    unfold cfg_inst_root at below below'
    omega

variable [Libc]

omit [Libc] in
theorem flagInst_unique {handle : Nat} (unique : UniqueOids db)
    (oid : ∀ x, (g x).oid = x.oid) (remove : ∀ x, (g x).remove = false → x.remove = false)
    (flagged : flagInst db handle g = some db') : UniqueOids db' := by
  unfold flagInst at flagged
  obtain ⟨inst,_,flagged⟩ := of_bind flagged
  cases inst with
  | none => cases flagged
  | some a =>
    cases flagged
    exact unique.setInst oid remove

/-- No step that meets the condition gives an OID out twice. -/
theorem dbStep_unique {op : DbOp} (trees : Trees db) (unique : UniqueOids db) (apart : OidsApart db op)
    (step : dbStep db op = some (db',rc)) : UniqueOids db' := by
  obtain ⟨okids,kids,objTree,tree⟩ := trees
  cases op with
  | register msg => exact registerRequest_unique objTree tree unique apart step
  | unregister id =>
    cases cfg_db_unregister_cases step with
    | refused => exact unique
    | pattern _ forgot => exact unique.of_insts (forget_masters_agree forgot).insts
    | @gone obj f o o2 o3 db1 db2 db3 db4 oid handles place forgot convert matched deleted found2 forgot2 found3
        unlinked own =>
      obtain ⟨dead,kids2,pruned,_⟩ := no_instance_left objTree tree place forgot convert matched deleted
      have kept : db4.insts = db2.insts := ((unlinkTree_insts unlinked).trans (unlinkOrder_agree db3 o3).insts).trans
        (forget_dependants_agree forgot2).insts
      exact ((unique.of_insts (forget_masters_agree forgot).insts).pruned pruned).of_insts kept
  | add_dependency msg =>
    cases add_dependency_cases step with
    | refused => exact unique
    | orphan _ missing => exact (cfg_db_find_unique objTree tree unique apart missing).of_insts rfl
    | created _ found _ created =>
      exact (cfg_db_find_unique objTree tree unique apart found).of_insts (create_agree created).insts
  | add oid type val =>
    obtain ⟨⟨db1,rc1,handle⟩,added,same⟩ := of_map step
    cases same
    exact cfg_db_add_unique objTree tree unique apart added
  | find oid =>
    obtain ⟨⟨db1,rc1,handle⟩,found,same⟩ := of_map step
    cases same
    exact cfg_db_find_unique objTree tree unique apart found
  | set handle val =>
    obtain ⟨a,i,o,_,_,_,⟨_,⟨_,_,rfl,_⟩ | ⟨rfl,_⟩⟩ | ⟨_,rfl,_⟩⟩ := cfg_db_set_cases step
    · exact unique
    · exact unique.setInst (fun _ => rfl) (fun _ => id)
    · exact unique
  | del handle =>
    obtain ⟨db1,deleted,same⟩ := of_map step
    cases same
    obtain ⟨_,_,_,_,_,_,_,pruned,_⟩ := cfg_db_del_tree tree deleted
    exact unique.pruned pruned
  | added handle =>
    obtain ⟨db1,flagged,same⟩ := of_map step
    cases same
    refine flagInst_unique unique ?_ ?_ flagged
    · exact fun _ => rfl
    · exact fun _ => id
  | remove handle remove =>
    obtain ⟨db1,flagged,same⟩ := of_map step
    cases same
    have removed : remove = true := apart
    refine flagInst_unique unique ?_ ?_ flagged
    · exact fun _ => rfl
    · simp [removed]

/-- In every run whose steps all meet the condition the instances that stay have
    different OIDs, and an addition of one of these OIDs that meets it is refused. -/
theorem oids_unique (reached : DbReach OidsApart db) : UniqueOids db ∧
    ∀ oid type val f a x, OidsApart db (.add oid type val) → SearchedBelow db oid type f → Stays db a x →
      x.oid = oid → cfg_db_add db oid type val = some (db,te .EEXIST,0) := by
  refine ⟨?_,fun oid type val f a x once searched stays same => ?_⟩
  · refine Reach.invariant_with (J := Trees) (fun _ reached => DbReach.trees reached) ?_ ?_ reached
    · rintro db ⟨tas,names,initialised⟩
      exact cfg_db_init_unique names initialised
    · rintro db op db' trees unique apart ⟨rc,step⟩
      exact dbStep_unique trees unique apart step
  · obtain ⟨okids,kids,objTree,tree⟩ := DbReach.trees reached
    exact (once f searched).1.exist objTree tree searched stays same

omit [Libc] in
/-- An OID may be added where no instance has it and none is below it. -/
theorem addsOnce_new {oid : CStr} {type : CfgValType} (new : ∀ a < db.insts.size, ∀ x ∈ db.insts.get a,
    x.oid ≠ oid ∧ startsWith (oid ++ ['/']) x.oid = false) : AddsOnce db oid type := by
  have each : ∀ {a x}, Stays db a x → x.oid ≠ oid ∧ startsWith (oid ++ ['/']) x.oid = false :=
    fun stays => new _ (Heap.lt_size stays.1) _ stays.1
  refine fun f _ => ⟨⟨fun stays same => absurd same (each stays).1,fun stays same => absurd same (each stays).1⟩,?_⟩
  intro _ _ a x stays under
  have free := (each stays).2
  rw [startsWith_iff.mpr under] at free
  cases free
end

section
/-- The object `/a`, and its instance `/a:1`. -/
def registeredDb : Db := (plainRun [plainRegister "/a" .none .read_create]).getD emptyDb
def addedDb : Db := (plainRun [plainRegister "/a" .none .read_create,plainAdd "/a:1"]).getD emptyDb
/-- `/a:1/b:x` with `/a:1/c:` before it, and after it is added again. -/
def shadowedDb : Db := (plainRun [plainRegister "/a" .none .read_create,plainAdd "/a:1",
  plainRegister "/a/b" .none .read_create,plainAdd "/a:1/b:x",plainRegister "/a/c" .int32 .read_write]).getD emptyDb
def repeatedDb : Db := ((@cfg_db_add plainLibc shadowedDb "/a:1/b:x".toList .none .none).map Prod.fst).getD emptyDb

/-- The instance is the only one with its OID, and the only son of the root. -/
theorem addedDb_sight : SearchedBelow addedDb "/a:1".toList .none cfg_inst_root ∧
    OidsApart addedDb (.add "/a:1".toList .none .none) := by
  have fathers : ∀ a < addedDb.insts.size, ∀ x ∈ addedDb.insts.get a, x.oid = "/a:1".toList →
      x.father = some cfg_inst_root := by decide +kernel
  have greatest : ∀ a < addedDb.insts.size, ∀ x ∈ addedDb.insts.get a, strLess "/a:1".toList x.oid = false := by
    decide +kernel
  have here : addedDb.insts.get 1 = some ((addedDb.insts.get 1).getD rootInstance) ∧
      ((addedDb.insts.get 1).getD rootInstance).oid = "/a:1".toList ∧
      ((addedDb.insts.get 1).getD rootInstance).remove = false := by decide +kernel
  have convert : cfg_convert_oid_str "/a:1".toList = some ⟨true,[rootId,⟨"a".toList,"1".toList⟩]⟩ := by decide +kernel
  have lookup : lookForFather addedDb.insts CfgInstance.toLinks (instIs addedDb) [rootId,⟨"a".toList,"1".toList⟩]
      cfg_inst_root = some (some cfg_inst_root) := by decide +kernel
  refine ⟨?_,fun f searched => ⟨⟨fun stays same => ?_,fun _ _ stays _ => ?_⟩,fun absent => ?_⟩⟩
  · exact ⟨_,8,(addedDb.insts.get 0).getD rootInstance,(addedDb.objs.get 8).getD reservedObjects[1],_,none,some 1,
      convert,rfl,lookup,by decide +kernel,rfl,⟨(addedDb.objs.get 0).getD reservedObjects[1],by decide +kernel,
      by decide +kernel⟩,by decide +kernel,.inr rfl,by decide +kernel⟩
  · obtain ⟨id,_,_,_,_,_,_,place⟩ := searched
    have isId := some.inj (convert.symm.trans place.convert)
    have isRoot := place.father
    rw [← isId,lookup] at isRoot
    rw [fathers _ (Heap.lt_size stays.1) _ stays.1 same,some.inj isRoot]
  · exact greatest _ (Heap.lt_size stays.1) _ stays.1
  · exact absurd here.2.1 (absent 1 _ ⟨here.1,here.2.2⟩)

/-- An OID that was added is not added again. -/
theorem oids_unique_added : UniqueOids addedDb ∧
    @cfg_db_add plainLibc addedDb "/a:1".toList .none .none = some (addedDb,te .EEXIST,0) := by
  have registered : @DbReach plainLibc OidsApart registeredDb := by
    refine .step (a := plainRegister "/a" .none .read_create) (@startDb_reach plainLibc _) ?_ ⟨none,by decide +kernel⟩
    rintro (only | ⟨write,_⟩) <;> cases ‹_ = _›
  have reached : @DbReach plainLibc OidsApart addedDb := by
    refine .step (a := plainAdd "/a:1") registered ?_ ⟨none,by decide +kernel⟩
    exact addsOnce_new (by decide +kernel)
  obtain ⟨searched,apart⟩ := addedDb_sight
  obtain ⟨unique,again⟩ := @oids_unique addedDb plainLibc reached
  exact ⟨unique,again _ _ _ _ 1 ((addedDb.insts.get 1).getD rootInstance) apart searched
    ⟨by decide +kernel,by decide +kernel⟩ (by decide +kernel)⟩

/-- The instance at `a` stays and has the OID. -/
def staysWith (db : Db) (oid : CStr) (a : Nat) : Bool := (db.insts.get a).any fun x => decide (x.oid = oid) && !x.remove
theorem not_unique {db : Db} {oid : CStr} {a b : Nat} (first : staysWith db oid a = true)
    (second : staysWith db oid b = true) (different : a ≠ b) : ¬ UniqueOids db := by
  intro unique
  obtain ⟨x,found,has⟩ := Option.any_eq_true .. |>.mp first
  obtain ⟨y,found',has'⟩ := Option.any_eq_true .. |>.mp second
  simp only [and_eq_true,decide_eq_true_eq,Bool.not_eq_true'] at has has'
  exact different (unique ⟨found,has.2⟩ ⟨found',has'.2⟩ (by rw [has.1,has'.1]))

/-- `/a:1/c:` stands before `/a:1/b:x`, which is then added a second time. -/
theorem behind_greater_added : ∃ db db' handle, plainRun [plainRegister "/a" .none .read_create,plainAdd "/a:1",
      plainRegister "/a/b" .none .read_create,plainAdd "/a:1/b:x",plainRegister "/a/c" .int32 .read_write] = some db ∧
    staysWith db "/a:1/b:x".toList 2 = true ∧
    @cfg_db_add plainLibc db "/a:1/b:x".toList .none .none = some (db',none,handle) ∧ ¬ UniqueOids db' :=
  ⟨shadowedDb,repeatedDb,4+4*2^32,by decide +kernel,by decide +kernel,by decide +kernel,
    @not_unique _ "/a:1/b:x".toList 2 4 (by decide +kernel) (by decide +kernel) (by decide)⟩
-- An automatic child left below an instance scheduled for removal is added again with the instance,
example : ¬ UniqueOids ((plainRun [plainRegister "/a" .none .read_create,plainRegister "/a/b" .int32 .read_write,
    plainAdd "/a:1",.remove (1+2^32) true,plainAdd "/a:1"]).getD emptyDb) :=
  @not_unique _ "/a:1/b:".toList 2 4 (by decide +kernel) (by decide +kernel) (by decide)
-- and below two instances of one OID a new object gets the same child.
example : ¬ UniqueOids ((plainRun [plainRegister "/a" .none .read_create,plainAdd "/a:1",.remove (1+2^32) true,
    plainAdd "/a:1",plainRegister "/a/b" .int32 .read_write]).getD emptyDb) :=
  @not_unique _ "/a:1/b:".toList 3 4 (by decide +kernel) (by decide +kernel) (by decide)
end
end TestEnvironment.Configurator
