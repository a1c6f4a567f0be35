import TestEnvironment.Configurator.Handles

/-!
The bookkeeping of dependencies: each is recorded once with the dependent object
and once with the master, and no record and no orphan names an object that is
not registered. Only `cfg_db_unregister_obj_by_id_str` may break this: it leaves
the orphans of the object in the list, and once the dependants have forgotten
the object it may still fail.
-/
namespace TestEnvironment.Configurator
open Lib

/-- What the records of all objects and the list of orphans have to say. -/
structure DepBook (db : Db) : Prop where
  mirror : ∀ {a b x y}, db.objs.get a = some x → db.objs.get b = some y → ∀ wide,
    x.depends_on.count ⟨b,wide⟩ = y.dependants.count ⟨a,wide⟩
  masters : ∀ {a x d}, db.objs.get a = some x → d ∈ x.depends_on → ∃ y, db.objs.get d.depends = some y
  dependants : ∀ {a x d}, db.objs.get a = some x → d ∈ x.dependants → ∃ y, db.objs.get d.depends = some y
  orphans : ∀ {orph}, orph ∈ db.orphaned_objects → ∃ y, db.objs.get orph.object = some y

section
variable {x y : CfgObject} (same : unnumbered x = unnumbered y)
include same
theorem unnumbered_depends_on : x.depends_on = y.depends_on :=
  show (unnumbered x).depends_on = (unnumbered y).depends_on by rw [same]
theorem unnumbered_dependants : x.dependants = y.dependants :=
  show (unnumbered x).dependants = (unnumbered y).dependants by rw [same]
end

section
variable {db db' : Db}

theorem DepBook.same (book : DepBook db) (objs : db'.objs = db.objs)
    (orphans : ∀ {orph}, orph ∈ db'.orphaned_objects → ∃ y, db.objs.get orph.object = some y) : DepBook db' where
  mirror := by rw [objs]; exact book.mirror
  masters := by rw [objs]; exact book.masters
  dependants := by rw [objs]; exact book.dependants
  orphans := by rw [objs]; exact orphans

/-- The lists of the objects of `db'` are those of `db` but for one more record
    that the master of the object `dep` is `master`. -/
structure Recorded (db db' : Db) (dep master : Nat) (wide : Bool) : Prop where
  depLive : ∃ x, db.objs.get dep = some x
  masterLive : ∃ x, db.objs.get master = some x
  back : ∀ {c x'}, db'.objs.get c = some x' → ∃ x, db.objs.get c = some x ∧
    x'.depends_on = (if c = dep then ⟨master,wide⟩ :: x.depends_on else x.depends_on) ∧
    x'.dependants.Perm (if c = master then ⟨dep,wide⟩ :: x.dependants else x.dependants)
  live : ∀ {c x}, db.objs.get c = some x → ∃ x', db'.objs.get c = some x'
  orphaned_objects : db'.orphaned_objects = db.orphaned_objects

theorem count_record {p : Prop} [Decidable p] (r d : CfgDependency) (l : List CfgDependency) :
    (if p then d :: l else l).count r = l.count r+if p ∧ d = r then 1 else 0 := by
  by_cases yes : p <;> simp [yes,List.count_cons]
theorem Recorded.book {dep master : Nat} {wide : Bool} (recorded : Recorded db db' dep master wide) (book : DepBook db) :
    DepBook db' where
  mirror := by
    intro a b x' y' foundA foundB w
    obtain ⟨x,thereA,masters,_⟩ := recorded.back foundA
    obtain ⟨y,thereB,_,dependants⟩ := recorded.back foundB
    have before := book.mirror thereA thereB w
    rw [masters,dependants.count_eq,count_record,count_record,before]
    simp only [CfgDependency.mk.injEq]
    congr 2
    exact propext ⟨fun ⟨isDep,isMaster,same⟩ => ⟨isMaster.symm,isDep.symm,same⟩,
      fun ⟨isMaster,isDep,same⟩ => ⟨isDep.symm,isMaster.symm,same⟩⟩
  masters := by
    intro a x' d found member
    obtain ⟨x,there,masters,_⟩ := recorded.back found
    have old : ∃ y, db.objs.get d.depends = some y := by
      rw [masters] at member
      split at member
      · rcases mem_cons.mp member with rfl | inside
        · exact recorded.masterLive
        · exact book.masters there inside
      · exact book.masters there member
    obtain ⟨y,old⟩ := old
    exact recorded.live old
  dependants := by
    intro a x' d found member
    obtain ⟨x,there,_,dependants⟩ := recorded.back found
    have old : ∃ y, db.objs.get d.depends = some y := by
      rw [dependants.mem_iff] at member
      split at member
      · rcases mem_cons.mp member with rfl | inside
        · exact recorded.depLive
        · exact book.dependants there inside
      · exact book.dependants there member
    obtain ⟨y,old⟩ := old
    exact recorded.live old
  orphans := by
    intro orph member
    rw [recorded.orphaned_objects] at member
    obtain ⟨y,old⟩ := book.orphans member
    exact recorded.live old
end

section
variable {db db' : Db} {master obj : Nat} {wide : Bool}

theorem insertDependant_perm {oid : CStr} {new : CfgDependency} {l l' : List CfgDependency}
    (inserted : insertDependant db oid new l = some l') : l'.Perm (new :: l) := by
  induction l generalizing l' with
  | nil => simp_all [insertDependant]
  | cons d l ih =>
    cases l with
    | nil =>
      simp only [insertDependant,some_inj] at inserted
      exact inserted ▸ .swap ..
    | cons d' ds =>
      obtain ⟨x,_,inserted⟩ := of_bind inserted
      split at inserted
      · cases inserted
        exact .swap ..
      · obtain ⟨rest,later,rfl⟩ := of_map inserted
        exact ((ih later).cons d).trans (.swap ..)

/-- `cfg_create_dep` records a dependency of the object or of its unit, or none. -/
theorem create_recorded (created : cfg_create_dep db master obj wide = some db') :
    (dependantOf db master obj = some none ∧ db' = db) ∨
      ∃ dep, dependantOf db master obj = some (some dep) ∧ Recorded db db' dep master wide := by
  obtain none' | ⟨dep,m,moved,o,m',dependants,target,foundM,put,foundO,foundM',inserted,rfl⟩ := create_cases created
  · exact .inl none'
  · refine .inr ⟨dep,target,?_⟩
    have agree := put_agree put
    have recordedM : ∀ {c y}, moved.objs.get c = some y → ∃ x, db.objs.get c = some x ∧
        y.depends_on = (if c = dep then ⟨master,wide⟩ :: x.depends_on else x.depends_on) ∧
        y.dependants = x.dependants := by
      intro c y found
      obtain ⟨y',found',same⟩ := agree.backward found
      rw [recordMaster,setObj_get] at found'
      rw [← unnumbered_depends_on same,← unnumbered_dependants same]
      by_cases isDep : c = dep
      · rw [if_pos isDep,← isDep] at found'
        obtain ⟨x,there,rfl⟩ := of_map found'
        exact ⟨x,there,by simp [isDep],rfl⟩
      · grind
    refine ⟨?_,⟨m,foundM⟩,?_,?_,agree.orphaned_objects⟩
    · obtain ⟨x,there,_⟩ := recordedM foundO
      exact ⟨x,there⟩
    · intro c x' found
      rw [setDependants,setObj_get] at found
      by_cases isMaster : c = master
      · rw [if_pos isMaster,foundM'] at found
        cases found
        obtain ⟨x,there,masters,dependants⟩ := recordedM foundM'
        subst isMaster
        refine ⟨x,there,masters,?_⟩
        rw [if_pos rfl,← dependants]
        exact insertDependant_perm inserted
      · grind
    · intro c x there
      obtain ⟨y,found,_⟩ := ((recordMaster_agree db dep master m wide).trans
        (agree.core_of.trans (setDependants_agree ..))).forward there
      exact ⟨y,found⟩
theorem create_book (book : DepBook db) (created : cfg_create_dep db master obj wide = some db') : DepBook db' := by
  rcases create_recorded created with ⟨_,rfl⟩ | ⟨_,_,recorded⟩
  · exact book
  · exact recorded.book book

variable {oid : CfgOid} {new : CfgObject} {table : List (Option Nat)}

theorem adopt_book {orphans kept : List CfgOrphan} (book : DepBook db)
    (adopted : adopt master oid orphans db = some (db',kept)) : DepBook db' := by
  induction orphans generalizing db db' kept with
  | nil => grind [adopt]
  | cons orphan rest ih =>
    unfold adopt at adopted
    obtain ⟨m,_,adopted⟩ := of_bind adopted
    split at adopted
    · obtain ⟨next,created,adopted⟩ := of_bind adopted
      exact ih (create_book book created) adopted
    · obtain ⟨⟨next,kept'⟩,later,adopted⟩ := of_bind adopted
      simp only [some_inj,Prod.mk.injEq] at adopted
      exact adopted.1 ▸ ih book later
theorem maybe_adopt_book (book : DepBook db) (adopted : cfg_maybe_adopt_objects db master oid = some db') : DepBook db' := by
  obtain ⟨db1,kept,adopted',rfl⟩ := maybe_adopt_cases adopted
  obtain ⟨agree,sub⟩ := adopt_agree adopted'
  have book1 := adopt_book book adopted'
  refine book1.same rfl fun member => ?_
  refine book1.orphans ?_
  rw [agree.orphaned_objects]
  exact sub.subset member

/-- The objects after a new one is linked: the new one, and the others with
    their numbers and lists. -/
theorem linkObject_back {f c : Nat} {x' : CfgObject} (young : f < db.objs.size)
    (found : (linkObject db table new f).objs.get c = some x') :
    (c = db.objs.size ∧ unordered x' = unordered new) ∨ ∃ x, db.objs.get c = some x ∧ x'.depends_on = x.depends_on ∧
      x'.dependants = x.dependants ∧ x'.ordinal_number = x.ordinal_number := by
  obtain ⟨y,there,same⟩ := (linkObject_order db table new f).backward found
  simp only [Heap.get_alloc_modify young] at there
  have lists : x'.depends_on = y.depends_on ∧ x'.dependants = y.dependants ∧ x'.ordinal_number = y.ordinal_number :=
    ⟨(unnumbered_depends_on (congrArg unnumbered same)).symm,(unnumbered_dependants (congrArg unnumbered same)).symm,
      (congrArg CfgObject.ordinal_number same).symm⟩
  by_cases isNew : c = db.objs.size
  · grind
  · rw [if_neg isNew] at there
    by_cases atFather : c = f
    · rw [if_pos atFather,← atFather] at there
      obtain ⟨x,old,rfl⟩ := of_map there
      exact .inr ⟨x,old,lists⟩
    · rw [if_neg atFather] at there
      exact .inr ⟨y,there,lists⟩
theorem linkObject_live {f c : Nat} {x : CfgObject} (young : f < db.objs.size)
    (old : db.objs.get c = some x) : ∃ x', (linkObject db table new f).objs.get c = some x' := by
  have before := Heap.lt_size old
  have there : ∃ y, ((db.objs.alloc new).modify f fun x => {x with son := some db.objs.size}).get c = some y := by
    rw [Heap.get_alloc_modify young,if_neg (ne_of_lt before)]
    by_cases atFather : c = f
    · rw [if_pos atFather,← atFather,old]
      exact ⟨_,rfl⟩
    · rw [if_neg atFather]
      exact ⟨x,old⟩
  obtain ⟨y,there⟩ := there
  obtain ⟨x',found,_⟩ := (linkObject_order db table new f).forward there
  exact ⟨x',found⟩
/-- A new object has no dependencies yet. -/
theorem link_book {f : Nat} (book : DepBook db) (young : f < db.objs.size)
    (masters : new.depends_on = []) (dependants : new.dependants = []) : DepBook (linkObject db table new f) := by
  have back : ∀ {c x'}, (linkObject db table new f).objs.get c = some x' →
      (c = db.objs.size ∧ x'.depends_on = [] ∧ x'.dependants = []) ∨
        ∃ x, db.objs.get c = some x ∧ x'.depends_on = x.depends_on ∧ x'.dependants = x.dependants := by
    intro c x' found
    rcases linkObject_back young found with ⟨isNew,same⟩ | ⟨x,old,lists,lists',_⟩
    · exact .inl ⟨isNew,(unnumbered_depends_on (congrArg unnumbered same)).trans masters,
        (unnumbered_dependants (congrArg unnumbered same)).trans dependants⟩
    · exact .inr ⟨x,old,lists,lists'⟩
  have live : ∀ {c x}, db.objs.get c = some x → ∃ x', (linkObject db table new f).objs.get c = some x' :=
    linkObject_live young
  have unknown : ∀ {c x wide}, db.objs.get c = some x →
      (⟨db.objs.size,wide⟩ : CfgDependency) ∉ x.depends_on ∧ (⟨db.objs.size,wide⟩ : CfgDependency) ∉ x.dependants := by
    intro c x wide old
    constructor
    · intro member
      obtain ⟨y,there⟩ := book.masters old member
      simp [Heap.get_fresh] at there
    · intro member
      obtain ⟨y,there⟩ := book.dependants old member
      simp [Heap.get_fresh] at there
  refine ⟨?_,?_,?_,?_⟩
  · intro a b x' y' foundA foundB wide
    rcases back foundA with ⟨rfl,emptyA,_⟩ | ⟨x,oldA,mastersA,_⟩
    · grind
    · rcases back foundB with ⟨rfl,_,emptyB⟩ | ⟨y,oldB,_,dependantsB⟩
      · grind
      · rw [mastersA,dependantsB]
        exact book.mirror oldA oldB wide
  · intro a x' d found member
    rcases back found with ⟨_,empty,_⟩ | ⟨x,old,masters',_⟩
    · simp [empty] at member
    · obtain ⟨y,there⟩ := book.masters old (masters' ▸ member)
      exact live there
  · intro a x' d found member
    rcases back found with ⟨_,_,empty⟩ | ⟨x,old,_,dependants'⟩
    · simp [empty] at member
    · obtain ⟨y,there⟩ := book.dependants old (dependants' ▸ member)
      exact live there
  · intro orph member
    have same : (linkObject db table new f).orphaned_objects = db.orphaned_objects :=
      (linkObject_order db table new f).orphaned_objects
    obtain ⟨y,there⟩ := book.orphans (same ▸ member)
    exact live there

theorem register_book {msg : CfgRegisterMsg} {rc : Rc} {handle : Nat} (book : DepBook db)
    (registered : cfg_process_msg_register db msg = some (db',rc,handle)) : DepBook db' := by
  cases cfg_process_msg_register_cases registered with
  | refused => exact book
  | linked place adopted parent =>
    have book2 := maybe_adopt_book (link_book book (Heap.lt_size place.found) rfl rfl) adopted
    rcases parent with ⟨_,created⟩ | ⟨_,rfl⟩
    · exact create_book book2 created
    · exact book2
end

section
variable {field other : CfgObject → List CfgDependency} {db db' db'' : Db} {obj : Nat} {l l' : List CfgDependency}

def isOf (obj : Nat) (d : CfgDependency) : Bool := decide (d.depends = obj)

theorem forget_spec (forgot : forget obj l = some l') : l'.countP (isOf obj)+1 = l.countP (isOf obj) ∧
    (∀ r, r.depends ≠ obj → l'.count r = l.count r) ∧ l'.Sublist l := by
  induction l generalizing l' with
  | nil => cases forgot
  | cons d l ih =>
    unfold forget at forgot
    split at forgot
    · rename_i here
      cases forgot
      refine ⟨by simp [isOf,here],fun r notObj => ?_,List.sublist_cons_self ..⟩
      have different : d ≠ r := by rintro rfl; exact notObj here
      rw [List.count_cons_of_ne different]
    · rename_i other
      obtain ⟨rest,later,rfl⟩ := of_map forgot
      obtain ⟨less,same,sub⟩ := ih later
      refine ⟨by simp [isOf,other] at less ⊢; omega,fun r notObj => ?_,sub.cons_cons d⟩
      simp only [List.count_cons,same r notObj]
theorem countP_isOf (c : Nat) (l : List CfgDependency) : l.countP (isOf c) = l.count ⟨c,true⟩+l.count ⟨c,false⟩ := by
  induction l with
  | nil => rfl
  | cons d l ih =>
    obtain ⟨depends,wide⟩ := d
    cases wide <;> by_cases here : depends = c <;> simp [isOf,here] at ih ⊢ <;> omega

/-- For each record of `l`, its object has lost a record of `obj` from the list `field`. -/
structure Forgets (field other : CfgObject → List CfgDependency) (db db' : Db) (obj : Nat) (l : List CfgDependency) :
    Prop where
  back : ∀ {c x'}, db'.objs.get c = some x' → ∃ x, db.objs.get c = some x ∧ other x' = other x ∧
    (field x').Sublist (field x) ∧ (∀ r, r.depends ≠ obj → (field x').count r = (field x).count r) ∧
    (field x').countP (isOf obj)+l.countP (isOf c) = (field x).countP (isOf obj)

theorem Forgets.refl (db : Db) : Forgets field other db db obj [] :=
  ⟨fun found => ⟨_,found,rfl,.refl _,fun _ _ => rfl,rfl⟩⟩
theorem Forgets.trans {l2 : List CfgDependency} (first : Forgets field other db db' obj l)
    (second : Forgets field other db' db'' obj l2) : Forgets field other db db'' obj (l ++ l2) where
  back found := by
    obtain ⟨y,there,otherY,subY,countY,lostY⟩ := second.back found
    obtain ⟨x,before,otherX,subX,countX,lostX⟩ := first.back there
    refine ⟨x,before,otherY.trans otherX,subY.trans subX,fun r notObj => (countY r notObj).trans (countX r notObj),?_⟩
    rw [List.countP_append]
    omega
theorem Forgets.set (upd : List CfgDependency → CfgObject → CfgObject) (own : ∀ l x, field (upd l x) = l) (rest : ∀ l x, other (upd l x) = other x) {a : Nat} {d : CfgObject}
    {wide : Bool} (found : db.objs.get a = some d) (forgot : forget obj (field d) = some l') :
    Forgets field other db (db.setObj a (upd l')) obj [⟨a,wide⟩] where
  back {c x'} there := by
    obtain ⟨less,same,sub⟩ := forget_spec forgot
    rw [setObj_get] at there
    by_cases here : c = a
    · rw [if_pos here,found] at there
      cases there
      subst here
      refine ⟨d,found,rest l' d,by rw [own]; exact sub,fun r notObj => by rw [own]; exact same r notObj,?_⟩
      rw [own,← less]
      simp [isOf]
    · rw [if_neg here] at there
      refine ⟨x',there,rfl,.refl _,fun _ _ => rfl,?_⟩
      simp [isOf,Ne.symm here]

/-- Records forgotten one after the other. -/
theorem Forgets.all (step : Db → Nat → Option Db) (upd : List CfgDependency → CfgObject → CfgObject) (own : ∀ l x, field (upd l x) = l)
    (rest : ∀ l x, other (upd l x) = other x)
    (one : ∀ {db db' a}, step db a = some db' → ∃ x l, db.objs.get a = some x ∧ forget obj (field x) = some l ∧ db' = db.setObj a (upd l))
    (forgot : l.foldlM (fun db d => step db d.depends) db = some db') : Forgets field other db db' obj l := by
  induction l generalizing db with
  | nil =>
    have same : db = db' := by simpa using forgot
    exact same ▸ Forgets.refl db
  | cons d l ih =>
    rw [foldlM_cons] at forgot
    obtain ⟨db1,first,later⟩ := of_bind forgot
    obtain ⟨x,l',found,gone,rfl⟩ := one first
    exact Forgets.trans (l := [d]) (Forgets.set upd own rest found gone) (ih later)
theorem forget_masters_spec (forgot : l.foldlM (fun db d => forget_master db d.depends obj) db = some db') :
    Forgets CfgObject.depends_on CfgObject.dependants db db' obj l :=
  .all (fun db a => forget_master db a obj) (fun l x => {x with depends_on := l}) (fun _ _ => rfl) (fun _ _ => rfl) forget_cases forgot
theorem forget_dependants_spec (forgot : l.foldlM (fun db d => forget_dependant db d.depends obj) db = some db') :
    Forgets CfgObject.dependants CfgObject.depends_on db db' obj l :=
  .all (fun db a => forget_dependant db a obj) (fun l x => {x with dependants := l}) (fun _ _ => rfl) (fun _ _ => rfl) forget_cases forgot
end

section
variable {db db' : Db} {okids kids : Nat → List Nat} {id : CStr} {rc : Rc} {obj f : Nat} {o o3 : CfgObject}

/-- An object leaves the order, the tree and the heap; the lists of the others stay. -/
theorem unlinked_lists {db3 db4 : Db} (unlinked : unlinkTree (unlinkOrder db3 o3) f obj o3 = some db4) :
    (∀ {c x'}, (db4.objs.free obj).get c = some x' → c ≠ obj ∧ ∃ x, db3.objs.get c = some x ∧
      x'.depends_on = x.depends_on ∧ x'.dependants = x.dependants) ∧
    (∀ {c x}, c ≠ obj → db3.objs.get c = some x → ∃ x', (db4.objs.free obj).get c = some x') ∧
    db4.orphaned_objects = db3.orphaned_objects := by
  have order : Agree (fun x => (x.depends_on,x.dependants)) db3 (unlinkOrder db3 o3) :=
    (unlinkOrder_agree db3 o3).comp (fun x : CfgObject => (x.depends_on,x.dependants)) fun _ => rfl
  have tree : Agree (fun x => (x.depends_on,x.dependants)) (unlinkOrder db3 o3) db4 := by
    unfold unlinkTree at unlinked
    obtain ⟨fo,_,unlinked⟩ := of_bind unlinked
    split at unlinked
    · cases unlinked
      exact Agree.setObj _ _ fun _ => rfl
    · obtain ⟨_,_,unlinked⟩ := of_bind unlinked
      obtain ⟨_,_,unlinked⟩ := of_bind unlinked
      cases unlinked
      exact Agree.setObj _ _ fun _ => rfl
  have agree := order.trans tree
  refine ⟨fun {c x'} found => ?_,fun {c x} other found => ?_,agree.orphaned_objects⟩
  · rw [Heap.get_free] at found
    split at found
    · cases found
    · rename_i other
      obtain ⟨x,there,same⟩ := agree.backward found
      exact ⟨other,x,there,(congrArg Prod.fst same).symm,(congrArg Prod.snd same).symm⟩
  · obtain ⟨x',there,_⟩ := agree.forward found
    exact ⟨x',by rw [Heap.get_free,if_neg other]; exact there⟩

/-- The object may be unregistered: it leaves no orphan behind, and once its
    dependants have forgotten it, nothing fails. -/
def UnregisterSafe (db : Db) (id : CStr) : Prop :=
  ∀ obj o f, UnregisterPlace db id obj o f →
    (AllConvert db → ∀ orph ∈ db.orphaned_objects, orph.object ≠ obj) ∧ (¬ AllConvert db → o.dependants = [])

theorem unregister_book (trees : Trees db) (book : DepBook db) (safe : UnregisterSafe db id)
    (gone : cfg_db_unregister_obj_by_id_str db id = some (db',rc)) : DepBook db' := by
  obtain ⟨okids,kids,objTree,tree⟩ := trees
  cases cfg_db_unregister_cases gone with
  | refused => exact book
  | @pattern obj f o _ oid err place forgot convert failed =>
    -- No search fails while all OIDs convert; otherwise there was nobody to forget the object.
    obtain ⟨_,quiet⟩ := safe obj o f place
    obtain ⟨isTail,same⟩ := place.oid convert objTree
    have notAll : ¬ AllConvert db := by
      intro all
      have all1 : AllConvert db' := by
        unfold AllConvert
        rw [(forget_masters_agree forgot).insts]
        exact all
      refine find_instPattern_ok all1 convert (place.plain convert) ?_ failed
      rw [isTail]
      intro empty
      rw [empty] at same
      rcases objTree.father_of place.found with ⟨_,noFather⟩ | ⟨f',p,up,father,_⟩
      · rw [place.up] at noFather; cases noFather
      · rw [objTree.subids_son place.found up father] at same
        simp at same
    rw [quiet notAll] at forgot
    have unchanged : db = db' := by simpa using forgot
    exact unchanged ▸ book
  | @gone obj f o o2 o3 db1 db2 db3 db4 oid handles place forgot convert matched deleted found2 forgot2 found3 unlinked =>
    obtain ⟨back4,live4,orphans4⟩ := unlinked_lists unlinked
    obtain ⟨dead,kids2,pruned,_⟩ := no_instance_left objTree tree place forgot convert matched deleted
    have agree1 := forget_masters_agree forgot
    have agree3 := forget_dependants_agree forgot2
    have masters := forget_masters_spec forgot
    have dependants := forget_dependants_spec forgot2
    -- The record of the object itself once its dependants have forgotten it.
    rw [pruned.objs] at found2
    obtain ⟨o',there,_,_,ownCount,_⟩ := masters.back found2
    have sameO : o' = o := some.inj (there.symm.trans place.found)
    subst sameO
    have back : ∀ {c x'}, (db4.objs.free obj).get c = some x' → c ≠ obj ∧ ∃ x, db.objs.get c = some x ∧
        x'.depends_on.countP (isOf obj) = 0 ∧ x'.dependants.countP (isOf obj) = 0 ∧
        x'.depends_on.Sublist x.depends_on ∧ x'.dependants.Sublist x.dependants ∧
        ∀ r, r.depends ≠ obj → x'.depends_on.count r = x.depends_on.count r ∧
          x'.dependants.count r = x.dependants.count r := by
      intro c x' found
      obtain ⟨other,x3,found3,depends4,dependants4⟩ := back4 found
      obtain ⟨x2,found2',depends3,sub3,count3,lost3⟩ := dependants.back found3
      rw [pruned.objs] at found2'
      obtain ⟨x,found1,dependants1,sub1,count1,lost1⟩ := masters.back found2'
      rw [depends4,dependants4,depends3]
      refine ⟨other,x,found1,?_,?_,sub1,by rw [← dependants1]; exact sub3,fun r notObj => ?_⟩
      · have mirror := fun wide => book.mirror found1 place.found wide
        rw [countP_isOf c,countP_isOf obj x.depends_on,mirror,mirror] at lost1
        omega
      · have mirror := fun wide => book.mirror place.found found1 wide
        rw [countP_isOf c,ownCount _ other,ownCount _ other,mirror,mirror,countP_isOf obj x2.dependants,
          dependants1] at lost3
        omega
      · exact ⟨count1 r notObj,by rw [count3 r notObj,dependants1]⟩
    have live : ∀ {c x}, c ≠ obj → db.objs.get c = some x → ∃ x', (db4.objs.free obj).get c = some x' := by
      intro c x other found
      obtain ⟨x1,found1,_⟩ := agree1.forward found
      rw [← pruned.objs] at found1
      obtain ⟨x3,found3,_⟩ := agree3.forward found1
      exact live4 other found3
    have noRecord : ∀ {l : List CfgDependency} {d}, l.countP (isOf obj) = 0 → d ∈ l → d.depends ≠ obj := by grind [isOf]
    have all : AllConvert db := by
      intro a x found
      by_contra missing
      have convertible := matched_convert matched (by rw [agree1.insts]; exact found)
        (tree.agree agree1)
      exact missing convertible
    refine ⟨?_,?_,?_,?_⟩
    · intro a b x' y' foundA foundB wide
      obtain ⟨otherA,x,oldA,_,_,_,_,countA⟩ := back foundA
      obtain ⟨otherB,y,oldB,_,_,_,_,countB⟩ := back foundB
      rw [(countA ⟨b,wide⟩ otherB).1,(countB ⟨a,wide⟩ otherA).2]
      exact book.mirror oldA oldB wide
    · intro a x' d found member
      obtain ⟨_,x,old,none',_,sub,_⟩ := back found
      obtain ⟨y,there⟩ := book.masters old (sub.subset member)
      exact live (noRecord none' member) there
    · intro a x' d found member
      obtain ⟨_,x,old,_,none',_,sub,_⟩ := back found
      obtain ⟨y,there⟩ := book.dependants old (sub.subset member)
      exact live (noRecord none' member) there
    · intro orph member
      have same : db4.orphaned_objects = db.orphaned_objects :=
        orphans4.trans (agree3.orphaned_objects.trans (pruned.orphaned_objects.trans agree1.orphaned_objects))
      change orph ∈ db4.orphaned_objects at member
      rw [same] at member
      obtain ⟨y,there⟩ := book.orphans member
      exact live ((safe obj o' f place).1 all orph member) there
end

section
variable [Libc] {db db' : Db} {rc : Rc}

omit [Libc] in
theorem emptyDb_book : DepBook emptyDb := by
  have empty : ∀ {a x}, emptyDb.objs.get a = some x → x.depends_on = [] ∧ x.dependants = [] := by
    intro a x found
    have small := reserved_lt found
    rw [reserved_get] at found
    interval_cases a <;> cases found <;> exact ⟨rfl,rfl⟩
  refine ⟨fun foundA foundB wide => ?_,fun found member => ?_,fun found member => ?_,fun member => ?_⟩
  · simp [(empty foundA).1,(empty foundB).2]
  · simp [(empty found).1] at member
  · simp [(empty found).2] at member
  · simp [emptyDb] at member
omit [Libc] in
theorem cfg_db_init_book {tas : List CStr} (initialised : cfg_db_init tas = some db) :
    DepBook db := by
  obtain ⟨db1,_,deps,agents⟩ := cfg_db_init_cases initialised
  obtain ⟨dbA,first,deps⟩ := of_bind deps
  obtain ⟨dbB,second,third⟩ := of_bind deps
  have book := create_book (create_book (create_book emptyDb_book first) second) third
  obtain ⟨objs,orphans,_⟩ := addAgents_objs agents
  exact book.same objs fun member => book.orphans (orphans ▸ member)

/-- A step is safe if an object that it unregisters leaves nothing behind. -/
def depSafe (db : Db) : DbOp → Prop
  | .unregister id => UnregisterSafe db id
  | _ => True

theorem dbStep_book {op : DbOp} (trees : Trees db) (book : DepBook db) (safe : depSafe db op)
    (step : dbStep db op = some (db',rc)) : DepBook db' := by
  obtain ⟨okids,kids,objTree,tree⟩ := trees
  have extend : ∀ {d d'}, Ext d d' → DepBook d → DepBook d' := fun ext old =>
    old.same ext.objs fun member => old.orphans (ext.orphaned_objects ▸ member)
  cases op with
  | register msg =>
    obtain ⟨db1,_,_,first,_,ext,_⟩ := registerRequest_extends objTree tree step
    exact extend ext (register_book book first)
  | unregister id => exact unregister_book ⟨okids,kids,objTree,tree⟩ book safe step
  | add_dependency msg =>
    cases add_dependency_cases step with
    | refused => exact book
    | orphan object missing =>
      have ext := (cfg_db_find_trees objTree tree missing).2
      have book1 := extend ext book
      refine book1.same rfl fun {orph} member => ?_
      rcases mem_cons.mp member with rfl | old
      · obtain ⟨o,there,_⟩ := objTree.slot object
        exact ⟨o,by rw [ext.objs]; exact there⟩
      · exact book1.orphans old
    | created _ found _ created => exact create_book (extend (cfg_db_find_trees objTree tree found).2 book) created
  | add oid type val =>
    obtain ⟨⟨db1,rc1,handle⟩,added,same⟩ := of_map step
    cases same
    exact extend (cfg_db_add_spec objTree tree added).2.1 book
  | find oid =>
    obtain ⟨⟨db1,rc1,handle⟩,found,same⟩ := of_map step
    cases same
    exact extend (cfg_db_find_trees objTree tree found).2 book
  | set handle val =>
    obtain ⟨a,i,o,_,_,_,⟨_,⟨_,_,rfl,_⟩ | ⟨rfl,_⟩⟩ | ⟨_,rfl,_⟩⟩ := cfg_db_set_cases step
    · exact book
    · exact book.same rfl book.orphans
    · exact book
  | del handle =>
    obtain ⟨db1,deleted,same⟩ := of_map step
    cases same
    obtain ⟨_,_,_,_,_,_,_,pruned,_⟩ := cfg_db_del_tree tree deleted
    exact book.same pruned.objs fun member => book.orphans (pruned.orphaned_objects ▸ member)
  | added handle | remove handle remove =>
    obtain ⟨db1,flagged,same⟩ := of_map step
    cases same
    obtain ⟨objs,orphans,_⟩ := flagInst_objs flagged
    exact book.same objs fun member => book.orphans (orphans ▸ member)

theorem DbReach.book (reached : DbReach depSafe db) : DepBook db :=
  Reach.invariant_with (fun _ before => DbReach.trees before) (fun _ ⟨_,_,initialised⟩ => cfg_db_init_book initialised)
    (fun _ _ _ trees book safe ⟨_,step⟩ => dbStep_book trees book safe step) reached

/-- In every run of safe steps the records mirror each other and name, like the
    orphans, only objects that are registered. -/
theorem dependencies_mirrored (reached : DbReach depSafe db) :
    DepBook db ∧ ∀ a o, db.objs.get a = some o → CFG_GET_OBJ db o.handle = some a := by
  obtain ⟨okids,_,objTree,_⟩ := reached.trees
  exact ⟨reached.book,fun a o found => (objTree.entry found).2⟩

/-- A run that unregisters an object which nothing depends on. -/
def unregisterRun : List DbOp := [plainRegister "/a" .none .read_create,.unregister "/a".toList]
omit [Libc] in
theorem dependencies_mirrored_unregister : ∃ db, plainRun unregisterRun = some db ∧
    DepBook db ∧ ∀ a o, db.objs.get a = some o → CFG_GET_OBJ db o.handle = some a := by
  obtain ⟨db1,first⟩ : ∃ db1, @dbStep plainLibc startDb (plainRegister "/a" .none .read_create) = some (db1,none) ∧
      cfg_get_obj_by_obj_id_str db1 "/a".toList = some (some 8) ∧
      (db1.objs.get 8).map CfgObject.dependants = some [] ∧ db1.orphaned_objects = [] ∧
      (plainRun unregisterRun).isSome := by
    refine ⟨((plainRun [plainRegister "/a" .none .read_create]).getD emptyDb),?_⟩
    decide +kernel
  obtain ⟨registered,lookup,alone,noOrphan,ends⟩ := first
  obtain ⟨db2,run⟩ := isSome_iff_exists.mp ends
  have second : ∃ rc, @dbStep plainLibc db1 (.unregister "/a".toList) = some (db2,rc) := by
    simp only [plainRun,dbRun,unregisterRun,foldlM_cons,List.foldlM_nil,registered,map_some,
      bind_eq_bind,bind_some,Option.pure_def] at run
    obtain ⟨db3,gone,same⟩ := of_bind run
    obtain ⟨⟨db4,rc⟩,result,isDb⟩ := of_map gone
    cases same
    exact ⟨rc,by rw [result]; exact congrArg (fun d => some (d,rc)) isDb⟩
  have safe : UnregisterSafe db1 "/a".toList := by
    intro obj o f place
    have isObj : obj = 8 := some.inj (some.inj (place.lookup.symm.trans lookup))
    subst isObj
    refine ⟨fun _ orph member => by simp [noOrphan] at member,fun _ => ?_⟩
    simpa [place.found] using alone
  have reached : @DbReach plainLibc depSafe db2 :=
    .step (a := .unregister "/a".toList)
      (.step (a := plainRegister "/a" .none .read_create) (@startDb_reach plainLibc _) trivial ⟨none,registered⟩) safe second
  exact ⟨db2,run,@dependencies_mirrored plainLibc db2 reached⟩
omit [Libc] in
/-- Unregistering an object leaves its orphan, which then names no object. -/
theorem orphan_dangles : ¬ ∀ db, @DbReach plainLibc anyStep db → DepBook db := by
  intro all
  obtain ⟨db,run,left⟩ : ∃ db, plainRun [plainRegister "/a" .none .read_create,
      .add_dependency ⟨8,"/zz".toList,false⟩,.unregister "/a".toList] = some db ∧
      (db.orphaned_objects.map CfgOrphan.object = [8] ∧ db.objs.get 8 = none) := by
    refine ⟨(plainRun [plainRegister "/a" .none .read_create,.add_dependency ⟨8,"/zz".toList,false⟩,
      .unregister "/a".toList]).getD emptyDb,?_⟩
    decide +kernel
  obtain ⟨orph,member,isObj⟩ := mem_map.mp (by rw [left.1]; simp : 8 ∈ db.orphaned_objects.map CfgOrphan.object)
  obtain ⟨y,found⟩ := (all db (plainRun_reach run)).orphans member
  rw [isObj,left.2] at found
  cases found
end
end TestEnvironment.Configurator
