import TestEnvironment.Configurator.Additions

/-!
Registration and unregistration keep the trees. An object is determined by the
components of its OID, and the object of an instance by the components of the
instance's OID; so a new object has no instances yet, and all instances of an
object match the pattern by which they are deleted with it.
-/
namespace TestEnvironment.Configurator
open Lib

section
variable {db : Db} {okids kids : Nat → List Nat}

theorem ObjTree.father_of (tree : ObjTree db okids) {a : Nat} {o : CfgObject} (found : db.objs.get a = some o) :
    (a = cfg_obj_root ∧ o.father = none) ∨
      ∃ f p, o.father = some f ∧ db.objs.get f = some p ∧ a ∈ okids f := by
  refine (tree.forest.father_of (objLinks_eq found)).imp_right ?_
  rintro ⟨f,k,up,live,member⟩
  obtain ⟨p,there,_⟩ := objLinks_some live
  exact ⟨f,p,up,there,member⟩
theorem InstTree.father_of (tree : InstTree db kids) {a : Nat} {i : CfgInstance} (found : db.insts.get a = some i) :
    (a = cfg_inst_root ∧ i.father = none) ∨
      ∃ f p, i.father = some f ∧ db.insts.get f = some p ∧ a ∈ kids f := by
  refine (tree.forest.father_of (instLinks_eq found)).imp_right ?_
  rintro ⟨f,k,up,live,member⟩
  obtain ⟨p,there,_⟩ := instLinks_some live
  exact ⟨f,p,up,there,member⟩

/-- The subids of an OID. -/
def subids (s : CStr) : List CStr := (components s).map CfgSubid.subid

theorem ObjTree.subids_son (tree : ObjTree db okids) {a f : Nat} {o p : CfgObject} (found : db.objs.get a = some o)
    (up : o.father = some f) (father : db.objs.get f = some p) : subids o.oid = subids p.oid ++ [o.subid] := by
  simp [subids,tree.path found up father]
/-- No two objects have the same subids on the way from the root. -/
theorem ObjTree.unique (tree : ObjTree db okids) {a b : Nat} {x y : CfgObject} (found : db.objs.get a = some x)
    (found' : db.objs.get b = some y) (same : subids x.oid = subids y.oid) : a = b := by
  obtain ⟨r,rootFound,_,rootOid,_⟩ := tree.root
  have rootSubids : ∀ {z}, db.objs.get cfg_obj_root = some z → subids z.oid = [] := by grind [subids]
  induction a using Nat.strongRecOn generalizing b x y with
  | ind a ih =>
    rcases tree.father_of found with ⟨rfl,_⟩ | ⟨f,p,up,father,member⟩
    · rcases tree.father_of found' with ⟨rfl,_⟩ | ⟨f',p',up',father',_⟩
      · rfl
      · rw [rootSubids found,tree.subids_son found' up' father'] at same
        simp at same
    · have sonX := tree.subids_son found up father
      rcases tree.father_of found' with ⟨rfl,_⟩ | ⟨f',p',up',father',member'⟩
      · simp_all
      · rw [sonX,tree.subids_son found' up' father'] at same
        obtain ⟨fathers,last⟩ := append_inj' same rfl
        have equal := ih f (tree.forest.older member) father father' fathers
        subst equal
        exact tree.siblings member member' found found' (by simpa using last)
/-- The object of an instance has the OID of the instance without the names. -/
theorem InstTree.object (objTree : ObjTree db okids) (tree : InstTree db kids) {a : Nat} {x : CfgInstance}
    (found : db.insts.get a = some x) : ∃ o, db.objs.get x.obj = some o ∧ subids o.oid = subids x.oid := by
  induction a using Nat.strongRecOn generalizing x with
  | ind a ih =>
    rcases tree.father_of found with ⟨rfl,_⟩ | ⟨f,p,up,father,member⟩
    · obtain ⟨r,rootFound,oid,_,obj,_⟩ := tree.root
      obtain ⟨o,object,_,comps,_⟩ := objTree.root
      have same : r = x := some.inj (rootFound.symm.trans found)
      subst same
      refine ⟨o,by rw [obj]; exact object,?_⟩
      rw [subids,comps,subids,oid]
      rfl
    · obtain ⟨po,fatherObj,fathers⟩ := ih f (tree.forest.older member) father
      obtain ⟨o,object,upObj,comps⟩ := tree.path found up father
      refine ⟨o,object,?_⟩
      rw [objTree.subids_son object upObj fatherObj,fathers]
      simp [subids,comps]
end

section
variable {db : Db} {okids : Nat → List Nat} {table : List (Option Nat)} {new fo : CfgObject} {f : Nat}

/-- The new object before and after it enters the topological order. -/
theorem linkObject_order (db : Db) (table : List (Option Nat)) (new : CfgObject) (f : Nat) :
    Agree unordered {db with
      objs := (db.objs.alloc new).modify f fun x => {x with son := some db.objs.size}
      cfg_all_obj := table.set new.handle (some db.objs.size)} (linkObject db table new f) :=
  (linkPrev_agree ..).trans (Agree.topological_order ..)
theorem linkObject_agree (db : Db) (table : List (Option Nat)) (new : CfgObject) (f : Nat) :
    Agree core {db with
      objs := (db.objs.alloc new).modify f fun x => {x with son := some db.objs.size}
      cfg_all_obj := table.set new.handle (some db.objs.size)} (linkObject db table new f) :=
  (linkObject_order db table new f).unnumbered_of.core_of

/-- A new object whose OID is the one of its father and one element more. -/
theorem linkObject_tree (tree : ObjTree db okids) (father : db.objs.get f = some fo)
    (taken : takeSlot db.cfg_all_obj CFG_OBJ_NUM = some (new.handle,table)) (up : new.father = some f)
    (noSon : new.son = none) (next : new.brother = fo.son)
    (named : new.subid ≠ [] ∧ '/' ∉ new.subid ∧ ':' ∉ new.subid ∧ ':' ∉ new.oid)
    (comps : components new.oid = components fo.oid ++ [⟨new.subid,[]⟩])
    (alone : ∀ {b y}, b ∈ okids f → db.objs.get b = some y → y.subid ≠ new.subid) :
    ObjTree (linkObject db table new f) (update okids f (db.objs.size :: okids f)) := by
  refine ObjTree.agree ?_ (linkObject_agree db table new f)
  obtain ⟨index,inside,empty,sameSlots,_⟩ := takeSlot_spec (by decide) taken
  have young := Heap.lt_size father
  have notNew : f ≠ db.objs.size := ne_of_lt young
  let db2 : Db := {db with
    objs := (db.objs.alloc new).modify f fun x => {x with son := some db.objs.size}
    cfg_all_obj := table.set new.handle (some db.objs.size)}
  have cells : ∀ b, db2.objs.get b = if b = db.objs.size then some new
      else if b = f then (db.objs.get f).map (fun x => {x with son := some db.objs.size}) else db.objs.get b :=
    fun b => Heap.get_alloc_modify young
  have entries : ∀ j, CFG_GET_OBJ db2 j = if j = new.handle then some db.objs.size else CFG_GET_OBJ db j := by grind [CFG_GET_OBJ]
  have backward : ∀ {b x'}, db2.objs.get b = some x' → (b = db.objs.size ∧ x' = new) ∨
      (b < db.objs.size ∧ ∃ x, db.objs.get b = some x ∧ x'.father = x.father ∧ x'.handle = x.handle ∧ x'.oid = x.oid ∧
        x'.subid = x.subid) := by
    intro b x' found
    rw [cells] at found
    by_cases isNew : b = db.objs.size
    · grind
    · rw [if_neg isNew] at found
      by_cases atFather : b = f
      · grind
      · rw [if_neg atFather] at found
        exact .inr ⟨Heap.lt_size found,x',found,rfl,rfl,rfl,rfl⟩
  have forward : ∀ {b x}, db.objs.get b = some x → ∃ x', db2.objs.get b = some x' ∧ x'.father = x.father ∧
      x'.handle = x.handle ∧ x'.oid = x.oid ∧ x'.subid = x.subid := by
    intro b x found
    have old := Heap.lt_size found
    rw [cells,if_neg (by omega)]
    by_cases atFather : b = f
    · grind
    · exact ⟨x,by rw [if_neg atFather]; exact found,rfl,rfl,rfl,rfl⟩
  have sons : ∀ {g b}, b ∈ update okids f (db.objs.size :: okids f) g ↔
      g = f ∧ b = db.objs.size ∨ b ∈ okids g := by grind
  have noNewSon : ∀ g, db.objs.size ∉ okids g := fun g member => by
    obtain ⟨o,found,_⟩ := tree.son member
    have := Heap.lt_size found
    omega
  refine ⟨?_,?_,?_,?_,?_,?_,?_⟩
  · refine tree.forest.push (objLinks_eq father) (by simp [objLinks,Heap.get_fresh]) young ?_ ?_ ?_
    · unfold objLinks
      rw [show db2.objs.get db.objs.size = some new by rw [cells,if_pos rfl],map_some]
      rw [← up,← noSon,← next]
    · unfold objLinks
      rw [show db2.objs.get f = some {fo with son := some db.objs.size} by
        rw [cells,if_neg notNew,if_pos rfl,father]; rfl]
      rfl
    · intro b isNew atFather
      unfold objLinks
      rw [show db2.objs.get b = db.objs.get b by rw [cells,if_neg isNew,if_neg atFather]]
  · obtain ⟨r,found,sub,oid,plain⟩ := tree.root
    obtain ⟨r',found',_,_,oid',sub'⟩ := forward found
    exact ⟨r',found',by rw [sub',sub],by rw [oid',oid],by rwa [oid']⟩
  · intro b g x' p' found upX foundP
    rcases backward found with ⟨rfl,rfl⟩ | ⟨_,x,old,upSame,_,oid,sub⟩
    · grind
    · rcases tree.father_of old with ⟨_,noFather⟩ | ⟨g',p,up',foundG,_⟩
      · rw [upSame,noFather] at upX; cases upX
      · have isG : g' = g := some.inj (up'.symm.trans (upSame.symm.trans upX))
        subst isG
        rcases backward foundP with ⟨isNew,_⟩ | ⟨_,p',oldP,_,_,oidP,_⟩
        · have := Heap.lt_size foundG; omega
        · rw [oid,oidP,sub]; exact tree.path old up' oldP
  · intro b x' found notRoot
    rcases backward found with ⟨rfl,rfl⟩ | ⟨_,x,old,_,_,oid,sub⟩
    · exact named
    · rw [oid,sub]; exact tree.named old notRoot
  · intro g a b x' y' inA inB foundA foundB same
    rcases sons.mp inA with ⟨isF,rfl⟩ | oldA
    · grind
    · rcases backward foundA with ⟨rfl,_⟩ | ⟨_,x,oldX,_,_,_,subX⟩
      · exact absurd oldA (noNewSon g)
      · rcases sons.mp inB with ⟨isF,rfl⟩ | oldB
        · grind
        · rcases backward foundB with ⟨rfl,_⟩ | ⟨_,y,oldY,_,_,_,subY⟩
          · exact absurd oldB (noNewSon g)
          · exact tree.siblings oldA oldB oldX oldY (by rw [← subX,← subY,same])
  · intro b x' found
    rcases backward found with ⟨rfl,rfl⟩ | ⟨_,x,old,_,handle,_,_⟩
    · refine ⟨?_,by rw [entries,if_pos rfl]⟩
      unfold CFG_HANDLE_MAX_INDEX at index; omega
    · obtain ⟨small,there⟩ := tree.entry old
      have occupied : x.handle ≠ new.handle := by
        intro equal
        rw [CFG_GET_OBJ,equal,empty] at there; cases there
      rw [handle,entries,if_neg occupied]
      exact ⟨small,there⟩
  · intro j b there
    rw [entries] at there
    by_cases here : j = new.handle
    · grind
    · rw [if_neg here] at there
      obtain ⟨x,found,handle⟩ := tree.slot there
      obtain ⟨x',found',_,handle',_⟩ := forward found
      exact ⟨x',found',handle'.trans handle⟩
end

section
variable {db : Db} {okids : Nat → List Nat} {f x : Nat} {pre post : List Nat} {o k : CfgObject}

/-- `unlinkTree` succeeds on a son: the link that changes is the one of the father
    or of the brother before. -/
theorem unlinkTree_eq (tree : ObjTree db okids) (split : okids f = pre ++ x :: post) :
    unlinkTree db f x o = some (db.setObj (pre.getLast?.getD f) fun y =>
      if pre.getLast?.isSome then {y with brother := o.brother} else {y with son := o.brother}) := by
  have member : x ∈ okids f := by simp [split]
  obtain ⟨kf,fatherLive⟩ := tree.forest.father_live member
  obtain ⟨fo,father,_⟩ := objLinks_some fatherLive
  have first : fo.son = (okids f).head? := tree.forest.son_eq (objLinks_eq father)
  unfold unlinkTree
  simp only [father,bind_eq_bind,bind_some]
  rcases eq_nil_or_concat pre with rfl | ⟨front,q,rfl⟩
  · grind
  · have split' : okids f = front ++ q :: x :: post := by simpa using split
    have notFirst : fo.son ≠ some x := tree.forest.son_not_later (objLinks_eq father) split'
    have atPrev := tree.forest.find_link_before (objs_linkOf db) split'
    rw [if_neg notFirst,tree.scan father,atPrev]
    simp

/-- A leaf leaves the tree and the table of objects. -/
theorem eraseObject_tree (tree : ObjTree db okids) (split : okids f = pre ++ x :: post) (leaf : okids x = [])
    (found : db.objs.get x = some o) :
    ObjTree {db with
      objs := (db.objs.modify (pre.getLast?.getD f) fun y =>
        if pre.getLast?.isSome then {y with brother := o.brother} else {y with son := o.brother}).free x
      cfg_all_obj := db.cfg_all_obj.set o.handle none} (update okids f (pre ++ post)) := by
  have member : x ∈ okids f := by simp [split]
  obtain ⟨_,fatherLive⟩ := tree.forest.father_live member
  obtain ⟨fo,father,_⟩ := objLinks_some fatherLive
  have notRoot : x ≠ cfg_obj_root := tree.son_not_root member
  obtain ⟨k,here⟩ : ∃ k, db.objs.get (pre.getLast?.getD f) = some k := by
    rcases eq_nil_or_concat pre with rfl | ⟨front,q,rfl⟩
    · exact ⟨fo,by simpa using father⟩
    · obtain ⟨y,foundQ,_⟩ := tree.son (f := f) (by simp [split] : q ∈ okids f)
      exact ⟨y,by simpa using foundQ⟩
  have notGone : pre.getLast?.getD f ≠ x := by
    rcases eq_nil_or_concat pre with rfl | ⟨front,q,rfl⟩
    · have := tree.forest.older member; simp; omega
    · have distinct := split ▸ tree.forest.nodup f
      rintro equal
      have equal' : q = x := by simpa using equal
      subst equal'
      exact (nodup_cons.mp (nodup_append.mp (by simpa using distinct)).2.1).1 (by simp)
  let link : CfgObject → CfgObject := fun y =>
    if pre.getLast?.isSome then {y with brother := o.brother} else {y with son := o.brother}
  have parts : ∀ y, (link y).father = y.father ∧ (link y).handle = y.handle ∧ (link y).oid = y.oid ∧
      (link y).subid = y.subid := by
    intro y; simp only [link]; split <;> exact ⟨rfl,rfl,rfl,rfl⟩
  let db' : Db := {db with
    objs := (db.objs.modify (pre.getLast?.getD f) link).free x
    cfg_all_obj := db.cfg_all_obj.set o.handle none}
  have cells : ∀ c, db'.objs.get c =
      if c = x then none else if c = pre.getLast?.getD f then some (link k) else db.objs.get c := by grind [Heap.get_free,Heap.get_modify]
  have backward : ∀ {c y'}, db'.objs.get c = some y' → c ≠ x ∧ ∃ y, db.objs.get c = some y ∧ y'.father = y.father ∧
      y'.handle = y.handle ∧ y'.oid = y.oid ∧ y'.subid = y.subid := by grind
  have forward : ∀ {c y}, c ≠ x → db.objs.get c = some y → ∃ y', db'.objs.get c = some y' ∧ y'.father = y.father ∧
      y'.handle = y.handle ∧ y'.oid = y.oid ∧ y'.subid = y.subid := by
    intro c y gone found'
    rw [cells,if_neg gone]
    by_cases atLink : c = pre.getLast?.getD f
    · simp_all
    · exact ⟨y,by rw [if_neg atLink]; exact found',rfl,rfl,rfl,rfl⟩
  obtain ⟨_,ownSlot⟩ := tree.entry found
  have entries : ∀ j, CFG_GET_OBJ db' j = if j = o.handle then none else CFG_GET_OBJ db j := by
    intro j
    change ((db.cfg_all_obj.set o.handle none)[j]?).join = _
    rw [List.getElem?_set]
    by_cases atSlot : j = o.handle
    · grind
    · simp [show ¬ o.handle = j from fun equal => atSlot equal.symm,atSlot,CFG_GET_OBJ]
  have sons : ∀ {g c}, c ∈ update okids f (pre ++ post) g → c ∈ okids g := by grind
  change ObjTree db' _
  refine ⟨?_,?_,?_,?_,?_,?_,?_⟩
  · refine tree.forest.unlinkAt split rfl (objLinks_eq father) (objLinks_eq found) (objLinks_eq here) leaf ?_ ?_ ?_
    · unfold objLinks
      rw [cells,if_pos rfl]; rfl
    · unfold objLinks
      rw [cells,if_neg notGone,if_pos rfl]
      simp only [link,map_some]
      split <;> rfl
    · simp_all [objLinks]
  · obtain ⟨r,rootFound,sub,oid,plain⟩ := tree.root
    obtain ⟨r',found',_,_,oid',sub'⟩ := forward (Ne.symm notRoot) rootFound
    exact ⟨r',found',by rw [sub',sub],by rw [oid',oid],by rwa [oid']⟩
  · intro c g y' p' found' up foundP'
    obtain ⟨_,y,foundY,fatherY,_,oidY,subY⟩ := backward found'
    obtain ⟨_,p,foundP,_,_,oidP,_⟩ := backward foundP'
    rw [oidY,oidP,subY]
    exact tree.path foundY (fatherY.symm.trans up) foundP
  · intro c y' found' notTop
    obtain ⟨_,y,foundY,_,_,oidY,subY⟩ := backward found'
    rw [oidY,subY]
    exact tree.named foundY notTop
  · intro g a b y' z' inA inB foundA foundB same
    obtain ⟨_,y,foundY,_,_,_,subY⟩ := backward foundA
    obtain ⟨_,z,foundZ,_,_,_,subZ⟩ := backward foundB
    exact tree.siblings (sons inA) (sons inB) foundY foundZ (by rw [← subY,← subZ,same])
  · intro c y' found'
    obtain ⟨gone,y,foundY,_,handle,_,_⟩ := backward found'
    obtain ⟨small,there⟩ := tree.entry foundY
    have other : y.handle ≠ o.handle := by grind
    rw [handle,entries,if_neg other]
    exact ⟨small,there⟩
  · intro j c there
    rw [entries] at there
    by_cases atSlot : j = o.handle
    · rw [if_pos atSlot] at there; cases there
    · rw [if_neg atSlot] at there
      obtain ⟨y,foundY,handle⟩ := tree.slot there
      have gone : c ≠ x := by grind
      obtain ⟨y',found',_,handle',_⟩ := forward gone foundY
      exact ⟨y',found',handle'.trans handle⟩
end

variable {handles : List Nat}

section
variable {db db' : Db} {kids : Nat → List Nat} {handle a : Nat}

/-- What `CFG_GET_INST` finds is not the root and has the handle. -/
theorem InstTree.get_inst (tree : InstTree db kids) (got : CFG_GET_INST db handle = some (some a)) :
    a ≠ cfg_inst_root ∧ (db.cfg_all_inst[handleIndex handle]?).join = some a ∧
      ∃ i, db.insts.get a = some i ∧ i.handle = handle := by
  unfold CFG_GET_INST at got
  split at got
  · simp at got
  split at got
  · simp at got
  cases slot : (db.cfg_all_inst[handleIndex handle]?).join with
  | none => simp [slot] at got
  | some b =>
    simp only [slot] at got
    obtain ⟨i,found,got⟩ := of_bind got
    split at got
    · rename_i same
      have equal : b = a := by simpa using got
      subst equal
      refine ⟨?_,rfl,i,found,same⟩
      rintro rfl
      obtain ⟨r,rootFound,_,_,_,rootHandle,_⟩ := tree.root
      have isRoot : i = r := some.inj (found.symm.trans rootFound)
      rcases tree.slot slot with ⟨_,zero⟩ | ⟨notRoot,_⟩
      · rw [← same,isRoot,rootHandle] at zero
        simp [handleIndex] at zero
      · exact notRoot rfl
    · simp at got

/-- `cfg_db_del` deletes an instance with all that is below it. -/
theorem cfg_db_del_tree (tree : InstTree db kids) (deleted : cfg_db_del db handle = some db') :
    ∃ a i kids', (db.cfg_all_inst[handleIndex handle]?).join = some a ∧ a ≠ cfg_inst_root ∧ db.insts.get a = some i ∧
      i.handle = handle ∧ Pruned db db' (Forest.Below kids a) ∧ InstTree db' kids' := by
  unfold cfg_db_del at deleted
  obtain ⟨inst,got,deleted⟩ := of_bind deleted
  cases inst with
  | none => cases deleted
  | some a =>
    obtain ⟨notRoot,slot,i,found,same⟩ := tree.get_inst got
    simp only [bind_eq_bind,bind_some,found] at deleted
    obtain ⟨f,up,deleted⟩ := of_bind deleted
    rcases tree.father_of found with ⟨top,_⟩ | ⟨f',_,up',_,member⟩
    · exact absurd top notRoot
    · have equal : f' = f := some.inj (up'.symm.trans up)
      subst equal
      obtain ⟨pre,post,split⟩ := append_of_mem member
      obtain ⟨db1,kids1,gone,pruned,tree1,_⟩ := delete_son_tree tree split
      have equal : db1 = db' := some.inj (gone.symm.trans deleted)
      subst equal
      exact ⟨a,i,kids1,slot,notRoot,found,same,pruned,tree1⟩

/-- The instances whose handles are listed are deleted. -/
theorem deleteMatches_tree (tree : InstTree db kids) (deleted : deleteMatches db handles = some db') :
    ∃ dead kids', Pruned db db' dead ∧ InstTree db' kids' ∧
      ∀ {a i}, db.insts.get a = some i → a ≠ cfg_inst_root → i.handle ∈ handles → dead a := by
  induction handles generalizing db kids with
  | nil =>
    have same : db = db' := by simpa [deleteMatches] using deleted
    subst same
    exact ⟨_,kids,Pruned.refl db,tree,by simp⟩
  | cons handle rest ih =>
    unfold deleteMatches at deleted
    obtain ⟨_,_,deleted⟩ := of_bind deleted
    obtain ⟨_,_,deleted⟩ := of_bind deleted
    obtain ⟨db1,first,deleted⟩ := of_bind deleted
    obtain ⟨b,i,kids1,slot,_,_,_,pruned1,tree1⟩ := cfg_db_del_tree tree first
    obtain ⟨dead,kids',pruned,tree',all⟩ := ih tree1 deleted
    refine ⟨_,kids',pruned1.trans pruned,tree',fun {a x} found notRoot member => ?_⟩
    by_cases early : Forest.Below kids b a
    · exact .inl early
    · rcases mem_cons.mp member with here | later
      · obtain ⟨_,there⟩ := tree.entry found notRoot
        rw [here,slot] at there
        have same : b = a := some.inj there
        exact absurd (same ▸ .refl) early
      · obtain ⟨x',found',same,_⟩ := pruned1.forward early found
        exact .inr (all found' notRoot (by rw [unlinked_handle same]; exact later))
end

section
variable {db : Db} {kids : Nat → List Nat}

variable {α β : Type} {ids : List CfgSubid} {inst : Bool} {p oid : CfgOid} {entries : List (Nat × CStr)} {str : CStr}

theorem mapM_results {f : α → Option β} {l : List α} {l' : List β} (all : l.mapM f = some l') : l.map f = l'.map some := by
  induction l generalizing l' with
  | nil => simpa using all.symm
  | cons x l ih =>
    simp only [List.mapM_cons,bind_eq_bind,bind_eq_some_iff,Option.pure_def,some_inj] at all
    obtain ⟨y,here,rest,later,rfl⟩ := all
    rw [map_cons,map_cons,here,ih later]
theorem mapM_mem {f : α → Option β} {l : List α} {l' : List β} (all : l.mapM f = some l') {x : α}
    (member : x ∈ l) : ∃ y, f x = some y ∧ y ∈ l' := by
  have there : f x ∈ l'.map some := mapM_results all ▸ mem_map_of_mem member
  obtain ⟨y,inside,same⟩ := mem_map.mp there
  exact ⟨y,same.symm,inside⟩

theorem strtok_instPattern (plain : ∀ id ∈ ids, '/' ∉ id.subid) :
    strtok '/' (instPattern ids) = ids.map fun id => id.subid ++ ":*".toList := by
  induction ids with
  | nil => rfl
  | cons id ids ih =>
    have token : '/' ∉ id.subid ++ ":*".toList := by simp [plain]
    have nonempty : id.subid ++ ":*".toList ≠ [] := by simp
    have unfolded : instPattern (id :: ids) = '/' :: ((id.subid ++ ":*".toList) ++ instPattern ids) := by
      simp [instPattern]
    rw [unfolded,strtok_delimiter]
    cases ids with
    | nil =>
      have empty : instPattern [] = [] := rfl
      rw [empty,append_nil,strtok_token token nonempty]
      rfl
    | cons id' ids =>
      have later := ih fun x member => plain x (by simp [member])
      obtain ⟨rest,slash⟩ : ∃ rest, instPattern (id' :: ids) = '/' :: rest := ⟨_,rfl⟩
      rw [slash] at later ⊢
      rw [strtok_delimiter] at later
      rw [strtok_append,later,strtok_token token nonempty]
      rfl
/-- The pattern names the elements of the object, with any name each. -/
theorem components_instPattern (plain : ∀ id ∈ ids, '/' ∉ id.subid ∧ ':' ∉ id.subid) :
    components (instPattern ids) = ids.map fun id => ⟨id.subid,"*".toList⟩ := by
  have notRoot : instPattern ids ≠ "/:".toList := by
    intro equal
    have tokens := strtok_instPattern fun id member => (plain id member).1
    rw [equal] at tokens
    cases ids with
    | nil => simp [instPattern] at equal
    | cons id ids =>
      have length := congrArg (fun l => (l.map List.length).sum) tokens
      have colon : strtok '/' "/:".toList = [":".toList] := by decide
      rw [colon] at length
      simp at length
      omega
  rw [components_cons notRoot,strtok_instPattern fun id member => (plain id member).1,map_map]
  refine map_congr_left fun id member => ?_
  have cut : strchr ':' (id.subid ++ ":*".toList) = some (id.subid,"*".toList) :=
    strchr_append (plain id member).2 _
  change element (id.subid ++ ":*".toList) = _
  rw [element,cut]

theorem matchIds_names {cs : List CfgSubid} (same : cs.map CfgSubid.subid = ids.map CfgSubid.subid) :
    matchIds true (rootId :: ids.map fun id => ⟨id.subid,"*".toList⟩) (rootId :: cs) = true := by
  have length : cs.length = ids.length := by simpa using congrArg List.length same
  have each : ((ids.map fun id => (⟨id.subid,"*".toList⟩ : CfgSubid)).zip cs).all (fun pair =>
      matchPart pair.1.subid pair.2.subid && (!true || matchPart pair.1.name pair.2.name)) = true := by
    induction ids generalizing cs with
    | nil => simp
    | cons id ids ih =>
      cases cs with
      | nil => simp at length
      | cons c cs => grind [matchPart_self,matchPart]
  simp only [matchIds,List.zip_cons_cons,List.all_cons,each]
  simp [length,matchPart_self]

theorem matchEntries_mem (matched : matchEntries (some p) inst entries = some handles) {handle : Nat} {oid : CStr}
    (member : (handle,oid) ∈ entries) : ∃ o, cfg_convert_oid_str oid = some o ∧
      (matchIds inst p.ids o.ids = true → handle ∈ handles) := by
  induction entries generalizing handles with
  | nil => simp at member
  | cons entry entries ih =>
    obtain ⟨h,s⟩ := entry
    simp only [matchEntries] at matched
    cases convert : cfg_convert_oid_str s with
    | none => simp [convert] at matched
    | some o =>
      simp only [convert] at matched
      obtain ⟨rest,later,rfl⟩ := of_map matched
      rcases mem_cons.mp member with here | inside
      · cases here
        exact ⟨o,convert,fun hit => by simp [hit]⟩
      · grind

theorem InstTree.in_table (tree : InstTree db kids) {a : Nat} {x : CfgInstance} (there : db.insts.get a = some x)
    (notRoot : a ≠ cfg_inst_root) : a ∈ db.cfg_all_inst.filterMap id := by
  obtain ⟨_,slot⟩ := tree.entry there notRoot
  refine List.mem_filterMap.mpr ⟨some a,?_,rfl⟩
  cases entry : db.cfg_all_inst[handleIndex x.handle]? with
  | none => simp [entry] at slot
  | some e => grind
/-- What a search by the pattern of an object goes through. -/
theorem pattern_listed (found : cfg_db_find_pattern db (instPattern ids) = some (.ok handles)) :
    ∃ p entries, cfg_convert_oid_str (instPattern ids) = some p ∧ matchEntries (some p) true entries = some handles ∧
      (db.cfg_all_inst.filterMap id).mapM (fun a => (db.insts.get a).map fun x => (x.handle,x.oid)) = some entries := by
  unfold cfg_db_find_pattern at found
  cases ids with
  | nil =>
    have empty : instPattern [] = [] := rfl
    simp [empty,cfg_convert_oid_str] at found
  | cons first ids =>
    obtain ⟨rest,slash⟩ : ∃ rest, instPattern (first :: ids) = '/' :: rest := ⟨_,rfl⟩
    have notStar : instPattern (first :: ids) ≠ "*".toList ∧ instPattern (first :: ids) ≠ "*:*".toList := by
      rw [slash]; constructor <;> simp
    simp only [notStar.1,notStar.2,if_false] at found
    cases convert : cfg_convert_oid_str (instPattern (first :: ids)) with
    | none => simp [convert] at found
    | some p =>
      have colon : p.inst = true := by
        rw [(convert_components convert).2.1]; simp [instPattern]
      simp only [convert,map_some,colon,if_true] at found
      obtain ⟨entries,listed,found⟩ := of_bind found
      cases matched : matchEntries (some p) true entries with
      | none => simp [matched] at found
      | some handles' =>
        simp only [matched,some_inj,Except.ok.injEq] at found
        exact ⟨p,entries,rfl,found ▸ matched,listed⟩
/-- The pattern of an object finds all its instances. -/
theorem find_instPattern (tree : InstTree db kids) (plain : ∀ id ∈ ids, '/' ∉ id.subid ∧ ':' ∉ id.subid)
    (found : cfg_db_find_pattern db (instPattern ids) = some (.ok handles)) {a : Nat} {x : CfgInstance}
    (there : db.insts.get a = some x) (notRoot : a ≠ cfg_inst_root)
    (same : subids x.oid = ids.map CfgSubid.subid) : x.handle ∈ handles := by
  obtain ⟨p,entries,convert,matched,listed⟩ := pattern_listed found
  obtain ⟨entry,pair,member⟩ := mapM_mem listed (tree.in_table there notRoot)
  rw [there] at pair
  obtain rfl : (x.handle,x.oid) = entry := by simpa using pair
  obtain ⟨o,converted,into⟩ := matchEntries_mem matched member
  refine into ?_
  rw [(convert_components convert).1,components_instPattern plain,(convert_components converted).1]
  exact matchIds_names same

theorem mapM_length {f : α → Option β} {l : List α} {l' : List β} (all : l.mapM f = some l') :
    l'.length = l.length := by simpa using (congrArg List.length (mapM_results all)).symm
theorem mapM_back {f : α → Option β} {l : List α} {l' : List β} (all : l.mapM f = some l') {y : β}
    (member : y ∈ l') : ∃ x ∈ l, f x = some y := by
  have there : some y ∈ l.map f := mapM_results all ▸ mem_map_of_mem member
  exact mem_map.mp there
theorem mapM_total {f : α → Option β} {l : List α} (each : ∀ x ∈ l, ∃ y, f x = some y) : ∃ l', l.mapM f = some l' := by
  induction l with
  | nil => exact ⟨[],rfl⟩
  | cons x l ih =>
    obtain ⟨y,here⟩ := each x (by simp)
    obtain ⟨rest,later⟩ := ih fun z member => each z (by simp [member])
    exact ⟨y :: rest,by simp [here,later]⟩

section
variable (converted : cfg_convert_oid_str str = some oid) (plain : oid.inst = false)
include converted plain
/-- An object OID names few elements, and each is short. -/
theorem convert_object_short :
    oid.ids.tail.length < CFG_OID_LEN_MAX ∧ ∀ id ∈ oid.ids.tail, id.subid.length < CFG_SUBID_MAX := by
  unfold cfg_convert_oid_str at converted
  dsimp only at converted
  split at converted
  · cases converted
  split at converted
  · cases converted
  split at converted
  · cases converted
    simp [CFG_OID_LEN_MAX]
  split at converted
  · cases converted
  · rename_i few
    obtain ⟨ids,all,rfl⟩ := of_map converted
    have noColon : ':' ∉ str := by simpa using plain
    rw [if_neg (by simpa using noColon)] at all
    refine ⟨by rw [tail_cons,mapM_length all]; omega,fun id member => ?_⟩
    obtain ⟨t,_,found⟩ := mapM_back all (by simpa using member)
    unfold convertObj at found
    split at found
    · cases found
    · cases found
      exact not_le.mp ‹¬ _ ≥ CFG_SUBID_MAX›
/-- The pattern of an object is always an OID. -/
theorem convert_instPattern (nonempty : oid.ids.tail ≠ []) :
    ∃ p, cfg_convert_oid_str (instPattern oid.ids.tail) = some p := by
  obtain ⟨comps,_,_⟩ := convert_components converted
  obtain ⟨few,short⟩ := convert_object_short converted plain
  have slashes : ∀ id ∈ oid.ids.tail, '/' ∉ id.subid ∧ ':' ∉ id.subid := by grind [components_mem]
  generalize oid.ids.tail = ids at *
  have tokens := strtok_instPattern fun id member => (slashes id member).1
  obtain ⟨first,rest,split⟩ : ∃ first rest, ids = first :: rest := by
    cases ids with
    | nil => exact absurd rfl nonempty
    | cons first rest => exact ⟨first,rest,rfl⟩
  obtain ⟨text,slash⟩ : ∃ text, instPattern ids = '/' :: text := ⟨_,by rw [split]; rfl⟩
  have length : (instPattern ids).length ≤ 130*ids.length := by
    clear tokens slash split nonempty few slashes
    induction ids with
    | nil => simp [instPattern]
    | cons id ids ih => grind [instPattern,CFG_SUBID_MAX]
  have each : ∀ t ∈ ids.map fun id => id.subid ++ ":*".toList, ∃ y, convertInst t = some y := by
    intro t member
    obtain ⟨id,inside,rfl⟩ := mem_map.mp member
    have cut : strchr ':' (id.subid ++ ":*".toList) = some (id.subid,"*".toList) := strchr_append (slashes id inside).2 _
    have here := short id inside
    refine ⟨⟨id.subid,"*".toList⟩,?_⟩
    simp only [convertInst,cut]
    rw [if_neg (by decide),if_neg (by omega)]
  obtain ⟨ids',all⟩ := mapM_total each
  have colon : ':' ∈ instPattern ids := by rw [split]; simp [instPattern]
  have special : ¬ (instPattern ids = "/".toList ∨ instPattern ids = "/:".toList) := by
    intro either
    rcases either with equal | equal <;> rw [equal] at tokens
    · grind
    · rw [split] at tokens
      have one : strtok '/' "/:".toList = [":".toList] := by decide
      rw [one] at tokens
      have lengths := congrArg (fun l => (l.map List.length).sum) tokens
      simp at lengths
      omega
  refine ⟨⟨true,rootId :: ids'⟩,?_⟩
  have inside : ¬ (instPattern ids).length ≥ CFG_OID_MAX := by
    simp only [CFG_OID_MAX,CFG_SUBID_MAX,CFG_INST_NAME_MAX,CFG_OID_LEN_MAX] at few ⊢
    omega
  unfold cfg_convert_oid_str
  rw [if_neg (by simp [slash]),if_neg inside]
  simp only [if_neg special,decide_eq_true colon]
  have tail : strtok '/' (instPattern ids).tail = ids.map fun id => id.subid ++ ":*".toList := by
    rw [← tokens,slash,tail_cons,strtok_delimiter]
  rw [tail,if_neg (by rw [length_map]; omega)]
  simp only [if_true]
  rw [all]
  rfl
end

theorem matchEntries_total (each : ∀ e ∈ entries, ∃ o, cfg_convert_oid_str e.2 = some o) :
    ∃ handles, matchEntries (some p) inst entries = some handles := by
  induction entries with
  | nil => exact ⟨[],rfl⟩
  | cons e entries ih =>
    obtain ⟨o,here⟩ := each e (by simp)
    obtain ⟨rest,later⟩ := ih fun x member => each x (by simp [member])
    simp only [matchEntries,here,later]
    exact ⟨_,rfl⟩

/-- The OIDs of all instances convert. -/
def AllConvert (db : Db) : Prop := ∀ {a x}, db.insts.get a = some x → ∃ o, cfg_convert_oid_str x.oid = some o

/-- The search for the instances of an object fails at most at an OID that does not convert. -/
theorem find_instPattern_ok (all : AllConvert db)
    (converted : cfg_convert_oid_str str = some oid) (plain : oid.inst = false) (nonempty : oid.ids.tail ≠ []) {err : TeErrno} :
    cfg_db_find_pattern db (instPattern oid.ids.tail) ≠ some (.error err) := by
  intro failed
  obtain ⟨p,convert⟩ := convert_instPattern converted plain nonempty
  obtain ⟨text,slash⟩ : ∃ text, instPattern oid.ids.tail = '/' :: text := by
    cases ids : oid.ids.tail with
    | nil => exact absurd ids nonempty
    | cons first rest => exact ⟨_,rfl⟩
  have notStar : instPattern oid.ids.tail ≠ "*".toList ∧ instPattern oid.ids.tail ≠ "*:*".toList := by
    rw [slash]; constructor <;> simp
  have colon : p.inst = true := by
    rw [(convert_components convert).2.1]
    cases ids : oid.ids.tail with
    | nil => exact absurd ids nonempty
    | cons first rest => simp [instPattern]
  unfold cfg_db_find_pattern at failed
  simp only [notStar.1,notStar.2,if_false,convert,map_some,colon,if_true] at failed
  obtain ⟨entries,listed,failed⟩ := of_bind failed
  have each : ∀ e ∈ entries, ∃ o, cfg_convert_oid_str e.2 = some o := by
    intro e member
    obtain ⟨a,_,found⟩ := mapM_back listed member
    obtain ⟨x,there,rfl⟩ := of_map found
    exact all there
  obtain ⟨handles,matched⟩ : ∃ handles, matchEntries (some p) true entries = some handles := matchEntries_total each
  simp [matched] at failed
/-- If the search succeeds, the OIDs of all instances convert. -/
theorem matched_convert {pattern : List CfgSubid}
    (found : cfg_db_find_pattern db (instPattern pattern) = some (.ok handles)) {a : Nat} {x : CfgInstance}
    (there : db.insts.get a = some x) (tree : InstTree db kids) : ∃ o, cfg_convert_oid_str x.oid = some o := by
  obtain ⟨r,root,rootOid,_⟩ := tree.root
  by_cases top : a = cfg_inst_root
  · have same : r = x := some.inj (root.symm.trans (top ▸ there))
    exact ⟨⟨true,[rootId]⟩,by rw [← same,rootOid]; decide⟩
  obtain ⟨p,entries,-,matched,listed⟩ := pattern_listed found
  obtain ⟨entry,pair,member⟩ := mapM_mem listed (tree.in_table there top)
  rw [there] at pair
  obtain rfl : (x.handle,x.oid) = entry := by simpa using pair
  obtain ⟨o,converted,-⟩ := matchEntries_mem matched member
  exact ⟨o,converted⟩
end
end TestEnvironment.Configurator
