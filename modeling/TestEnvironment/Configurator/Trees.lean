import TestEnvironment.Configurator.Frames

/-!
The invariants of the two trees and their tables. `ObjTree` and `InstTree` say
that the family links make a tree, that the OID of a node is the OID of its
father and one component more, and that the slots of the table and the nodes of
the tree are the same. Objects keep the first whatever happens to their
dependencies; one lemma for each change of the tree of instances (a new
instance, a leaf deleted, a value or flag changed) keeps the second.
-/
namespace TestEnvironment.Configurator
open Lib

def objLinks (db : Db) : LinkMap := fun a => (db.objs.get a).map CfgObject.toLinks
def instLinks (db : Db) : LinkMap := fun a => (db.insts.get a).map CfgInstance.toLinks

structure ObjTree (db : Db) (kids : Nat → List Nat) : Prop where
  forest : Forest (objLinks db) cfg_obj_root kids
  root : ∃ o, db.objs.get cfg_obj_root = some o ∧ o.subid = [] ∧ components o.oid = [] ∧ ':' ∉ o.oid
  path : ∀ {a f o p}, db.objs.get a = some o → o.father = some f → db.objs.get f = some p →
    components o.oid = components p.oid ++ [⟨o.subid,[]⟩]
  named : ∀ {a o}, db.objs.get a = some o → a ≠ cfg_obj_root →
    o.subid ≠ [] ∧ '/' ∉ o.subid ∧ ':' ∉ o.subid ∧ ':' ∉ o.oid
  siblings : ∀ {f a b x y}, a ∈ kids f → b ∈ kids f → db.objs.get a = some x → db.objs.get b = some y →
    x.subid = y.subid → a = b
  entry : ∀ {a o}, db.objs.get a = some o → o.handle < 2^32 ∧ CFG_GET_OBJ db o.handle = some a
  slot : ∀ {i a}, CFG_GET_OBJ db i = some a → ∃ o, db.objs.get a = some o ∧ o.handle = i

structure InstTree (db : Db) (kids : Nat → List Nat) : Prop where
  forest : Forest (instLinks db) cfg_inst_root kids
  root : ∃ i, db.insts.get cfg_inst_root = some i ∧ i.oid = "/:".toList ∧ i.name = [] ∧ i.obj = cfg_obj_root ∧
    i.handle = 0x10000 ∧ i.remove = false
  path : ∀ {a f i p}, db.insts.get a = some i → i.father = some f → db.insts.get f = some p →
    ∃ o, db.objs.get i.obj = some o ∧ o.father = some p.obj ∧
      components i.oid = components p.oid ++ [⟨o.subid,i.name⟩]
  entry : ∀ {a i}, db.insts.get a = some i → a ≠ cfg_inst_root →
    handleIndex i.handle < db.cfg_all_inst.length ∧ (db.cfg_all_inst[handleIndex i.handle]?).join = some a
  slot : ∀ {j : Nat} {a}, (db.cfg_all_inst[j]?).join = some a →
    (a = cfg_inst_root ∧ j = 0) ∨ (a ≠ cfg_inst_root ∧ ∃ i, db.insts.get a = some i ∧ handleIndex i.handle = j)
  first : (db.cfg_all_inst[0]?).join = some cfg_inst_root
  number : ∀ {a i}, db.insts.get a = some i → a ≠ cfg_inst_root →
    1 ≤ i.handle/2^32 ∧ i.handle/2^32 < 2^32 ∧ (a < 2^32 → i.handle/2^32 = a)
  seq : db.cfg_inst_seq_num < 2^32 ∧ (db.insts.size ≤ 2^32 → db.cfg_inst_seq_num = db.insts.size % 2^32)
  chunks : CFG_INST_NUM ∣ db.cfg_all_inst.length ∧ db.cfg_all_inst.length ≤ 2^32

section
variable {db db' : Db} {kids : Nat → List Nat}

theorem objLinks_eq {a : Nat} {o : CfgObject} (found : db.objs.get a = some o) : objLinks db a = some o.toLinks := by
  simp [objLinks,found]
theorem instLinks_eq {a : Nat} {i : CfgInstance} (found : db.insts.get a = some i) :
    instLinks db a = some i.toLinks := by simp [instLinks,found]
variable {k : Links}

theorem objLinks_some {a : Nat} (found : objLinks db a = some k) :
    ∃ o, db.objs.get a = some o ∧ o.toLinks = k := of_map found
theorem instLinks_some {a : Nat} (found : instLinks db a = some k) :
    ∃ i, db.insts.get a = some i ∧ i.toLinks = k := of_map found
theorem objs_linkOf (db : Db) : linkOf db.objs (fun x => x.brother) = brotherOf (objLinks db) := by
  funext a; simp [linkOf,brotherOf,objLinks,comp_def]
theorem insts_linkOf (db : Db) : linkOf db.insts (fun x => x.brother) = brotherOf (instLinks db) := by
  funext a; simp [linkOf,brotherOf,instLinks,comp_def]
/-- The scan over the sons of an object. -/
theorem ObjTree.scan (tree : ObjTree db kids) {a : Nat} {o : CfgObject} (found : db.objs.get a = some o)
    (p : CfgObject → Bool) : scan db.objs (fun x => x.brother) p db.objs.size o.son =
      some ((kids a).find? (testAt db.objs p)) :=
  scan_find (by rw [objs_linkOf]; exact tree.forest.chain (objLinks_eq found))
theorem InstTree.scan (tree : InstTree db kids) {a : Nat} {i : CfgInstance} (found : db.insts.get a = some i)
    (p : CfgInstance → Bool) : scan db.insts (fun x => x.brother) p db.insts.size i.son =
      some ((kids a).find? (testAt db.insts p)) :=
  scan_find (by rw [insts_linkOf]; exact tree.forest.chain (instLinks_eq found))
theorem InstTree.scanPrev (tree : InstTree db kids) {a : Nat} {i : CfgInstance} (found : db.insts.get a = some i)
    (p : CfgInstance → Bool) (prev : Option Nat) :
    scanPrev db.insts (fun x => x.brother) p db.insts.size prev i.son =
      some (((kids a).takeWhile (fun a => !testAt db.insts p a)).getLast?.or prev,
        ((kids a).dropWhile (fun a => !testAt db.insts p a)).head?) :=
  scanPrev_split (by rw [insts_linkOf]; exact tree.forest.chain (instLinks_eq found)) prev

theorem Agree.objLinks_same (agree : Agree core db db') : objLinks db' = objLinks db := by
  funext a
  have same := congrArg (Option.map CfgObject.toLinks) (agree.objs a)
  simpa [objLinks,Option.map_map,comp_def,core,unnumbered,unordered] using same
/-- The tree of objects does not depend on their dependencies. -/
theorem ObjTree.agree (tree : ObjTree db kids) (agree : Agree core db db') : ObjTree db' kids where
  forest := by rw [agree.objLinks_same]; exact tree.forest
  root := by
    obtain ⟨o,found,sub,oid,plain⟩ := tree.root
    obtain ⟨o',found',same⟩ := agree.forward found
    have subid : o'.subid = o.subid := core_subid same
    have text : o'.oid = o.oid := core_oid same
    exact ⟨o',found',by rw [subid,sub],by rw [text,oid],by rwa [text]⟩
  path := by
    intro a f o' p' found' father foundF'
    obtain ⟨o,found,same⟩ := agree.backward found'
    obtain ⟨p,foundF,sameF⟩ := agree.backward foundF'
    have up : o.father = o'.father := core_father same
    have subid : o.subid = o'.subid := core_subid same
    have text : o.oid = o'.oid := core_oid same
    have textF : p.oid = p'.oid := core_oid sameF
    rw [← text,← textF,← subid]
    exact tree.path found (up.trans father) foundF
  named := by
    intro a o' found' notRoot
    obtain ⟨o,found,same⟩ := agree.backward found'
    have subid : o.subid = o'.subid := core_subid same
    have text : o.oid = o'.oid := core_oid same
    rw [← subid,← text]
    exact tree.named found notRoot
  siblings := by
    intro f a b x' y' inA inB foundA' foundB' equal
    obtain ⟨x,foundA,sameA⟩ := agree.backward foundA'
    obtain ⟨y,foundB,sameB⟩ := agree.backward foundB'
    have subA : x.subid = x'.subid := core_subid sameA
    have subB : y.subid = y'.subid := core_subid sameB
    exact tree.siblings inA inB foundA foundB (by rw [subA,subB,equal])
  entry := by
    intro a o' found'
    obtain ⟨o,found,same⟩ := agree.backward found'
    have handle : o.handle = o'.handle := core_handle same
    rw [← handle,CFG_GET_OBJ,agree.cfg_all_obj]
    exact tree.entry found
  slot := by
    intro i a there
    rw [CFG_GET_OBJ,agree.cfg_all_obj] at there
    obtain ⟨o,found,handle⟩ := tree.slot there
    obtain ⟨o',found',same⟩ := agree.forward found
    exact ⟨o',found',(core_handle same).trans handle⟩
theorem ObjTree.of_same (tree : ObjTree db kids) (objs : db'.objs = db.objs)
    (table : db'.cfg_all_obj = db.cfg_all_obj) : ObjTree db' kids where
  forest := by
    have same : objLinks db' = objLinks db := by unfold objLinks; rw [objs]
    rw [same]; exact tree.forest
  root := by rw [objs]; exact tree.root
  path := by rw [objs]; exact tree.path
  named := by rw [objs]; exact tree.named
  siblings := by rw [objs]; exact tree.siblings
  entry := by unfold CFG_GET_OBJ; rw [objs,table]; exact tree.entry
  slot := by unfold CFG_GET_OBJ; rw [objs,table]; exact tree.slot
end

/-- An instance without its family links. -/
def unlinked (i : CfgInstance) : CfgInstance := {i with father := none,son := none,brother := none}

/-- The instance `a` is new: below `f` in its place among the sons, in the slot
    `i` of a table that may have grown; everything else is as before. -/
structure Grown (db db' : Db) (f a i : Nat) (new : CfgInstance) : Prop where
  objs : db'.objs = db.objs
  cfg_all_obj : db'.cfg_all_obj = db.cfg_all_obj
  orphaned_objects : db'.orphaned_objects = db.orphaned_objects
  topological_order : db'.topological_order = db.topological_order
  fresh : a = db.insts.size
  size : db'.insts.size = db.insts.size+1
  insts : ∀ b, (db'.insts.get b).map unlinked = if b = a then some (unlinked new) else (db.insts.get b).map unlinked
  fathers : ∀ b, fatherOf (instLinks db') b = if b = a then some (some f) else fatherOf (instLinks db) b
  slots : ∀ j : Nat, (db'.cfg_all_inst[j]?).join = if j = i then some a else (db.cfg_all_inst[j]?).join

variable {x' s : CfgInstance}

section
variable {db db' : Db} {kids : Nat → List Nat} {table : List (Option Nat)} {i f a obj : Nat} {fi : CfgInstance}
  {prev : Option Nat} {oid name : CStr} {val : CfgInstVal} {pre post : List Nat}

theorem handle_parts {i n : Nat} (index : i ≤ CFG_HANDLE_MAX_INDEX) :
    handleIndex (i+n*2^32) = i ∧ (i+n*2^32)/2^32 = n := by grind [CFG_HANDLE_MAX_INDEX,handleIndex]

/-- The new instance of `linkInstance` before its brother link is known. -/
def newInstance (db : Db) (i f obj : Nat) (oid name : CStr) (val : CfgInstVal) (brother : Option Nat) : CfgInstance where
  father := some f
  son := none
  brother := brother
  handle := i+(if db.cfg_inst_seq_num = 0 then 1 else db.cfg_inst_seq_num)*2^32
  oid := oid
  name := name
  obj := obj
  added := false
  remove := false
  val := val

/-- `linkInstance` is the change of one link, of the father or of the brother before. -/
theorem linkInstance_cases (linked : linkInstance db table i f prev obj oid name val = some (db',a)) :
    a = db.insts.size ∧ ∃ b k, db.insts.get ((prev).getD f) = some k ∧
      b = (if prev.isSome then k.brother else k.son) ∧
      db' = {db with
        insts := (db.insts.alloc (newInstance db i f obj oid name val b)).modify (prev.getD f) fun x =>
          if prev.isSome then {x with brother := some a} else {x with son := some a}
        cfg_all_inst := table.set i (some a)
        cfg_inst_seq_num := ((if db.cfg_inst_seq_num = 0 then 1 else db.cfg_inst_seq_num)+1) % 2^32} := by
  unfold linkInstance at linked
  cases prev with
  | none | some p =>
    obtain ⟨k,found,linked⟩ := of_bind linked
    obtain ⟨rfl,rfl⟩ := of_pair linked
    exact ⟨rfl,_,k,found,rfl,rfl⟩

theorem linkInstance_grown (tree : InstTree db kids) (father : db.insts.get f = some fi) (split : kids f = pre ++ post)
    (place : prev = pre.getLast?) (linked : linkInstance db table i f prev obj oid name val = some (db',a))
    (inside : i < table.length) (sameSlots : ∀ j : Nat, (table[j]?).join = (db.cfg_all_inst[j]?).join) :
    ∃ brother, Grown db db' f a i (newInstance db i f obj oid name val brother) ∧
      db'.insts.get a = some (newInstance db i f obj oid name val brother) ∧
      db'.cfg_all_inst = table.set i (some a) ∧
      db'.cfg_inst_seq_num = ((if db.cfg_inst_seq_num = 0 then 1 else db.cfg_inst_seq_num)+1) % 2^32 ∧
      Forest (instLinks db') cfg_inst_root (update kids f (pre ++ a :: post)) := by
  obtain ⟨rfl,b,k,found,brother,rfl⟩ := linkInstance_cases linked
  have live := Heap.lt_size found
  have young := Heap.lt_size father
  have notLast : prev.getD f ≠ db.insts.size := ne_of_lt live
  let new := newInstance db i f obj oid name val b
  let link : CfgInstance → CfgInstance := fun x =>
    if prev.isSome then {x with brother := some db.insts.size} else {x with son := some db.insts.size}
  have cells : ∀ c, ((db.insts.alloc new).modify (prev.getD f) link).get c =
      if c = db.insts.size then some new else if c = prev.getD f then (db.insts.get (prev.getD f)).map link
        else db.insts.get c := fun c => Heap.get_alloc_modify live
  have free : instLinks db db.insts.size = none := by simp [instLinks,Heap.get_fresh]
  have parts : ∀ x, unlinked (link x) = unlinked x ∧ (link x).father = x.father := by
    intro x; simp only [link]; split <;> exact ⟨rfl,rfl⟩
  refine ⟨b,⟨rfl,rfl,rfl,rfl,rfl,by simp,?_,?_,?_⟩,?_,rfl,rfl,?_⟩
  · grind
  · grind [fatherOf,instLinks,newInstance]
  · grind
  · rw [cells]; simp [new]
  · refine tree.forest.insertAt split place (instLinks_eq father) (instLinks_eq found) free young ?_ ?_ ?_
    · unfold instLinks
      rw [cells]
      simp [new,newInstance,brother]
    · unfold instLinks
      rw [cells,if_neg notLast,if_pos rfl,found]
      cases prev <;> simp [link]
    · intro c isNew atLink
      unfold instLinks
      rw [cells,if_neg isNew,if_neg atLink]

variable {new : CfgInstance}

/-- An instance found after an instance was linked is the new one or an old one. -/
theorem Grown.backward (grown : Grown db db' f a i new) {b : Nat}
    (found : db'.insts.get b = some x') : (b = a ∧ unlinked x' = unlinked new) ∨
      (b ≠ a ∧ ∃ x, db.insts.get b = some x ∧ unlinked x = unlinked x' ∧ x.father = x'.father) := by
  have data := grown.insts b
  have up := grown.fathers b
  rw [found] at data
  by_cases isNew : b = a
  · exact .inl ⟨isNew,by simpa [isNew] using data⟩
  · simp only [isNew,if_false,map_some] at data
    obtain ⟨x,old,same⟩ := of_map data.symm
    refine .inr ⟨isNew,x,old,same,?_⟩
    simpa [fatherOf,instLinks,found,old,isNew] using up.symm
theorem Grown.forward (grown : Grown db db' f a i new) {b : Nat} {x : CfgInstance} (found : db.insts.get b = some x) :
    b ≠ a ∧ ∃ x', db'.insts.get b = some x' ∧ unlinked x' = unlinked x ∧ x'.father = x.father := by
  have old : b ≠ a := by have := Heap.lt_size found; have := grown.fresh; omega
  have data := grown.insts b
  have up := grown.fathers b
  rw [found] at data
  simp only [old,if_false,map_some] at data
  obtain ⟨x',found',same⟩ := of_map data
  exact ⟨old,x',found',same,by simpa [fatherOf,instLinks,found,found',old] using up⟩

section
variable {x y : CfgInstance} (same : unlinked x = unlinked y)
include same
theorem unlinked_handle : x.handle = y.handle := show (unlinked x).handle = (unlinked y).handle by rw [same]
theorem unlinked_oid : x.oid = y.oid := show (unlinked x).oid = (unlinked y).oid by rw [same]
theorem unlinked_name : x.name = y.name := show (unlinked x).name = (unlinked y).name by rw [same]
theorem unlinked_obj : x.obj = y.obj := show (unlinked x).obj = (unlinked y).obj by rw [same]
theorem unlinked_remove : x.remove = y.remove := show (unlinked x).remove = (unlinked y).remove by rw [same]
end

/-- A new instance whose OID is the one of its father and one component more. -/
theorem linkInstance_tree {o : CfgObject} (tree : InstTree db kids) (father : db.insts.get f = some fi)
    (split : kids f = pre ++ post) (place : prev = pre.getLast?)
    (taken : takeSlot db.cfg_all_inst CFG_INST_NUM = some (i,table)) (object : db.objs.get obj = some o)
    (below : o.father = some fi.obj) (comps : components oid = components fi.oid ++ [⟨o.subid,name⟩])
    (linked : linkInstance db table i f prev obj oid name val = some (db',a)) :
    (∃ brother, Grown db db' f a i (newInstance db i f obj oid name val brother)) ∧
      InstTree db' (update kids f (pre ++ a :: post)) := by
  obtain ⟨index,inside,empty,sameSlots,grows⟩ := takeSlot_spec (by decide) taken
  obtain ⟨brother,grown,new,tableEq,seqEq,forest⟩ := linkInstance_grown tree father split place linked inside sameSlots
  refine ⟨⟨brother,grown⟩,?_⟩
  obtain ⟨r,rootFound,rootOid,rootName,rootObj,rootHandle,rootStays⟩ := tree.root
  have fresh := grown.fresh
  have rootOld := Heap.lt_size rootFound
  have seqSmall := tree.seq.1
  obtain ⟨newIndex,newNumber⟩ := @handle_parts i (if db.cfg_inst_seq_num = 0 then 1 else db.cfg_inst_seq_num) index
  refine ⟨forest,?_,?_,?_,?_,?_,?_,?_,?_⟩
  · obtain ⟨_,r',found',same,_⟩ := grown.forward rootFound
    exact ⟨r',found',by rw [unlinked_oid same,rootOid],by rw [unlinked_name same,rootName],
      by rw [unlinked_obj same,rootObj],by rw [unlinked_handle same,rootHandle],by rw [unlinked_remove same,rootStays]⟩
  · intro b c x' p' found' up foundF'
    rcases grown.backward found' with ⟨rfl,same⟩ | ⟨_,x,found,same,upSame⟩
    · have isNew : x' = newInstance db i f obj oid name val brother := some.inj (found'.symm.trans new)
      subst isNew
      have atF : f = c := some.inj up
      subst atF
      rcases grown.backward foundF' with ⟨isNew,_⟩ | ⟨_,p,foundF,sameF,_⟩
      · have := Heap.lt_size father; omega
      · have equal : p = fi := some.inj (foundF.symm.trans father)
        subst equal
        refine ⟨o,by rw [grown.objs]; exact object,by rw [below,unlinked_obj sameF],?_⟩
        rw [← unlinked_oid sameF]; exact comps
    · rcases grown.backward foundF' with ⟨isNew,_⟩ | ⟨_,p,foundF,sameF,_⟩
      · subst isNew
        rcases tree.forest.born (instLinks_eq found) with top | ⟨d,fatherD,member⟩
        · obtain ⟨k,topFound,noFather,_⟩ := tree.forest.top
          have equal : k = x.toLinks := some.inj (topFound.symm.trans (top ▸ instLinks_eq found))
          subst equal
          rw [upSame,up] at noFather; cases noFather
        · obtain ⟨kd,live⟩ := tree.forest.father_live member
          obtain ⟨y,foundD,_⟩ := instLinks_some live
          have equal : d = c := some.inj (fatherD.symm.trans (upSame.trans up))
          have := Heap.lt_size foundD; omega
      · obtain ⟨o',object',below',comps'⟩ := tree.path found (upSame.trans up) foundF
        refine ⟨o',by rw [grown.objs,← unlinked_obj same]; exact object',by rw [below',unlinked_obj sameF],?_⟩
        rw [← unlinked_oid same,← unlinked_oid sameF,← unlinked_name same]; exact comps'
  · intro b x' found' notRoot
    rw [grown.slots]
    rcases grown.backward found' with ⟨rfl,same⟩ | ⟨_,x,found,same,_⟩
    · have handle : handleIndex x'.handle = i := by rw [unlinked_handle same]; exact newIndex
      rw [handle,tableEq]
      simp [inside]
    · obtain ⟨bound,there⟩ := tree.entry found notRoot
      rw [unlinked_handle same] at bound there
      have occupied : handleIndex x'.handle ≠ i := by rintro rfl; simp [empty] at there
      rw [if_neg occupied,there,tableEq,List.length_set]
      refine ⟨?_,rfl⟩
      rcases grows with rfl | ⟨_,longer⟩
      · exact bound
      · omega
  · intro j b there
    rw [grown.slots] at there
    by_cases atSlot : j = i
    · simp only [atSlot,if_true,some_inj] at there
      subst there
      exact .inr ⟨by omega,_,new,newIndex.trans atSlot.symm⟩
    · simp only [atSlot,if_false] at there
      rcases tree.slot there with ⟨rfl,rfl⟩ | ⟨notRoot,x,found,handle⟩
      · exact .inl ⟨rfl,rfl⟩
      · obtain ⟨_,x',found',same,_⟩ := grown.forward found
        exact .inr ⟨notRoot,x',found',by rw [unlinked_handle same,handle]⟩
  · rw [grown.slots]
    have notFirst : (0 : Nat) ≠ i := by rintro rfl; simp [tree.first] at empty
    rw [if_neg notFirst,tree.first]
  · intro b x' found' notRoot
    rcases grown.backward found' with ⟨rfl,same⟩ | ⟨_,x,found,same,_⟩
    · have number : x'.handle/2^32 = if db.cfg_inst_seq_num = 0 then 1 else db.cfg_inst_seq_num := by
        rw [unlinked_handle same]; exact newNumber
      rw [number]
      refine ⟨by split <;> omega,by split <;> omega,fun small => ?_⟩
      have seq := tree.seq.2 (by omega)
      rw [mod_eq_of_lt (by omega)] at seq
      rw [if_neg (by omega)]; omega
    · rw [← unlinked_handle same]; exact tree.number found notRoot
  · rw [seqEq,grown.size]
    refine ⟨mod_lt _ (by omega),fun small => ?_⟩
    have seq := tree.seq.2 (by omega)
    rw [mod_eq_of_lt (by omega)] at seq
    rw [if_neg (by omega),seq]
  · rw [tableEq,List.length_set]
    obtain ⟨divides,bound⟩ := tree.chunks
    rcases grows with rfl | ⟨full,longer⟩
    · exact ⟨divides,bound⟩
    · unfold CFG_HANDLE_MAX_INDEX at index
      unfold CFG_INST_NUM at divides longer ⊢
      omega
end

/-- The instances in `dead` are gone, the others are as before but for the links
    to what is gone. -/
structure Pruned (db db' : Db) (dead : Nat → Prop) : Prop where
  objs : db'.objs = db.objs
  cfg_all_obj : db'.cfg_all_obj = db.cfg_all_obj
  orphaned_objects : db'.orphaned_objects = db.orphaned_objects
  topological_order : db'.topological_order = db.topological_order
  size : db'.insts.size = db.insts.size
  live : db'.insts.live ≤ db.insts.live
  gone : ∀ {b}, dead b → db'.insts.get b = none
  insts : ∀ {b}, ¬ dead b → (db'.insts.get b).map unlinked = (db.insts.get b).map unlinked
  fathers : ∀ {b}, ¬ dead b → fatherOf (instLinks db') b = fatherOf (instLinks db) b

namespace Pruned
variable {db db' db'' : Db} {dead dead' : Nat → Prop}

theorem refl (db : Db) : Pruned db db fun _ => False :=
  ⟨rfl,rfl,rfl,rfl,rfl,le_rfl,False.elim,fun _ => rfl,fun _ => rfl⟩
theorem trans (first : Pruned db db' dead) (second : Pruned db' db'' dead') :
    Pruned db db'' fun b => dead b ∨ dead' b where
  objs := second.objs.trans first.objs
  cfg_all_obj := second.cfg_all_obj.trans first.cfg_all_obj
  orphaned_objects := second.orphaned_objects.trans first.orphaned_objects
  topological_order := second.topological_order.trans first.topological_order
  size := second.size.trans first.size
  live := le_trans second.live first.live
  gone := by
    intro b either
    by_cases later : dead' b
    · exact second.gone later
    · have kept := second.insts later
      rw [first.gone (either.resolve_right later)] at kept
      simpa using kept
  insts alive := (second.insts (fun d => alive (.inr d))).trans (first.insts (fun d => alive (.inl d)))
  fathers alive := (second.fathers (fun d => alive (.inr d))).trans (first.fathers (fun d => alive (.inl d)))
theorem congr (pruned : Pruned db db' dead) (same : ∀ b, dead' b ↔ dead b) : Pruned db db' dead' := by
  have equal : dead' = dead := funext fun b => propext (same b)
  exact equal ▸ pruned
theorem backward (pruned : Pruned db db' dead) {b : Nat} (found : db'.insts.get b = some x') :
    ¬ dead b ∧ ∃ x, db.insts.get b = some x ∧ unlinked x = unlinked x' ∧ x.father = x'.father := by
  have alive : ¬ dead b := fun d => by simp [pruned.gone d] at found
  have data := pruned.insts alive
  have up := pruned.fathers alive
  rw [found] at data
  obtain ⟨x,old,same⟩ := of_map data.symm
  exact ⟨alive,x,old,same,by simpa [fatherOf,instLinks,found,old] using up.symm⟩
theorem forward (pruned : Pruned db db' dead) {b : Nat} {x : CfgInstance} (alive : ¬ dead b)
    (found : db.insts.get b = some x) :
    ∃ x', db'.insts.get b = some x' ∧ unlinked x' = unlinked x ∧ x'.father = x.father := by
  have data := pruned.insts alive
  have up := pruned.fathers alive
  rw [found] at data
  obtain ⟨x',found',same⟩ := of_map data
  exact ⟨x',found',same,by simpa [fatherOf,instLinks,found,found'] using up⟩
end Pruned

/-- The table without the instance that is gone is the table of the others. -/
theorem InstTree.prune {db db' : Db} {kids kids' : Nat → List Nat} {x : Nat} (tree : InstTree db kids)
    (pruned : Pruned db db' fun b => b = x) (forest : Forest (instLinks db') cfg_inst_root kids')
    (son : db.insts.get x = some s) (notRoot : x ≠ cfg_inst_root)
    (table : db'.cfg_all_inst = db.cfg_all_inst.set (handleIndex s.handle) none)
    (seq : db'.cfg_inst_seq_num = db.cfg_inst_seq_num) : InstTree db' kids' := by
  obtain ⟨bound,here⟩ := tree.entry son notRoot
  have slots : ∀ j : Nat, (db'.cfg_all_inst[j]?).join =
      if j = handleIndex s.handle then none else (db.cfg_all_inst[j]?).join := by grind
  obtain ⟨r,rootFound,rootOid,rootName,rootObj,rootHandle,rootStays⟩ := tree.root
  refine ⟨forest,?_,?_,?_,?_,?_,?_,?_,?_⟩
  · obtain ⟨r',found',same,_⟩ := pruned.forward (Ne.symm notRoot) rootFound
    exact ⟨r',found',by rw [unlinked_oid same,rootOid],by rw [unlinked_name same,rootName],
      by rw [unlinked_obj same,rootObj],by rw [unlinked_handle same,rootHandle],by rw [unlinked_remove same,rootStays]⟩
  · intro b c y' p' found' up foundF'
    obtain ⟨_,y,found,same,upSame⟩ := pruned.backward found'
    obtain ⟨_,p,foundF,sameF,_⟩ := pruned.backward foundF'
    obtain ⟨o,object,below,comps⟩ := tree.path found (upSame.trans up) foundF
    refine ⟨o,by rw [pruned.objs,← unlinked_obj same]; exact object,by rw [below,unlinked_obj sameF],?_⟩
    rw [← unlinked_oid same,← unlinked_oid sameF,← unlinked_name same]; exact comps
  · intro b y' found' notRootB
    obtain ⟨alive,y,found,same,_⟩ := pruned.backward found'
    obtain ⟨boundB,there⟩ := tree.entry found notRootB
    rw [unlinked_handle same] at boundB there
    have other : handleIndex y'.handle ≠ handleIndex s.handle := by grind
    rw [slots,if_neg other,there,table,List.length_set]
    exact ⟨boundB,rfl⟩
  · intro j b there
    rw [slots] at there
    by_cases atSlot : j = handleIndex s.handle
    · simp [atSlot] at there
    · rw [if_neg atSlot] at there
      rcases tree.slot there with ⟨rfl,rfl⟩ | ⟨notRootB,y,found,handle⟩
      · exact .inl ⟨rfl,rfl⟩
      · have alive : b ≠ x := by grind
        obtain ⟨y',found',same,_⟩ := pruned.forward alive found
        exact .inr ⟨notRootB,y',found',by rw [unlinked_handle same,handle]⟩
  · have notFirst : (0 : Nat) ≠ handleIndex s.handle := by
      intro equal
      rw [← equal,tree.first] at here
      exact notRoot (some.inj here).symm
    rw [slots,if_neg notFirst,tree.first]
  · intro b y' found' notRootB
    obtain ⟨_,y,found,same,_⟩ := pruned.backward found'
    rw [← unlinked_handle same]; exact tree.number found notRootB
  · rw [seq,pruned.size]; exact tree.seq
  · rw [table,List.length_set]; exact tree.chunks

section
variable {db db' : Db} {kids : Nat → List Nat} {f x : Nat} {pre post : List Nat}

variable (tree : InstTree db kids)
include tree
/-- `unlinkSon` succeeds on a son: the link that changes is the one of the father
    or of the brother before. -/
theorem unlinkSon_eq (split : kids f = pre ++ x :: post) {k : CfgInstance}
    (son : db.insts.get x = some s) (found : db.insts.get (pre.getLast?.getD f) = some k) : unlinkSon db f x = some {db with
      insts := (db.insts.modify (pre.getLast?.getD f) fun y =>
        if pre.getLast?.isSome then {y with brother := s.brother} else {y with son := s.brother}).free x
      cfg_all_inst := db.cfg_all_inst.set (handleIndex s.handle) none} := by
  have member : x ∈ kids f := by simp [split]
  obtain ⟨kf,fatherLive⟩ := tree.forest.father_live member
  obtain ⟨fi,father,_⟩ := instLinks_some fatherLive
  have notRoot : x ≠ cfg_inst_root := fun equal => tree.forest.root_not_kid f (equal ▸ member)
  obtain ⟨bound,_⟩ := tree.entry son notRoot
  have first : fi.son = (kids f).head? := tree.forest.son_eq (instLinks_eq father)
  unfold unlinkSon
  simp only [father,son,bind_eq_bind,bind_some]
  rcases eq_nil_or_concat pre with rfl | ⟨front,q,rfl⟩
  · simp [first,split,bound,Db.setInst]
  · have split' : kids f = front ++ q :: x :: post := by simpa using split
    have notFirst : fi.son ≠ some x := tree.forest.son_not_later (instLinks_eq father) split'
    have atPrev := tree.forest.find_link_before (insts_linkOf db) split'
    rw [if_neg notFirst,tree.scan father,atPrev]
    simp [bound,Db.setInst]

/-- A leaf is deleted. -/
theorem unlinkSon_tree (split : kids f = pre ++ x :: post) (leaf : kids x = []) :
    ∃ db', unlinkSon db f x = some db' ∧ Pruned db db' (fun b => b = x) ∧ db'.insts.live+1 = db.insts.live ∧
      InstTree db' (update kids f (pre ++ post)) := by
  have member : x ∈ kids f := by simp [split]
  obtain ⟨_,sonLive,sonFather⟩ := tree.forest.kid member
  obtain ⟨s,son,rfl⟩ := instLinks_some sonLive
  obtain ⟨_,fatherLive⟩ := tree.forest.father_live member
  obtain ⟨fi,father,_⟩ := instLinks_some fatherLive
  have notRoot : x ≠ cfg_inst_root := fun equal => tree.forest.root_not_kid f (equal ▸ member)
  obtain ⟨k,found⟩ : ∃ k, db.insts.get (pre.getLast?.getD f) = some k := by
    rcases eq_nil_or_concat pre with rfl | ⟨front,q,rfl⟩
    · exact ⟨fi,by simpa using father⟩
    · obtain ⟨_,live,_⟩ := tree.forest.kid (by simp [split] : q ∈ kids f)
      obtain ⟨y,foundQ,_⟩ := instLinks_some live
      exact ⟨y,by simpa using foundQ⟩
  have notGone : pre.getLast?.getD f ≠ x := by
    rcases eq_nil_or_concat pre with rfl | ⟨front,q,rfl⟩
    · have := tree.forest.older member; simp; omega
    · have distinct := split ▸ tree.forest.nodup f
      rintro equal
      have equal' : q = x := by simpa using equal
      subst equal'
      exact (nodup_cons.mp (nodup_append.mp (by simpa using distinct)).2.1).1 (by simp)
  let link : CfgInstance → CfgInstance := fun y =>
    if pre.getLast?.isSome then {y with brother := s.brother} else {y with son := s.brother}
  have parts : ∀ y, unlinked (link y) = unlinked y ∧ (link y).father = y.father := by
    intro y; simp only [link]; split <;> exact ⟨rfl,rfl⟩
  have cells : ∀ c, ((db.insts.modify (pre.getLast?.getD f) link).free x).get c =
      if c = x then none else if c = pre.getLast?.getD f then some (link k) else db.insts.get c := by
    intro c
    rw [Heap.get_free,Heap.get_modify,found]
    rfl
  have freed := @Heap.live_free _ s (db.insts.modify (pre.getLast?.getD f) link) x
    (by rw [Heap.get_modify,if_neg (Ne.symm notGone)]; exact son)
  rw [Heap.live_modify] at freed
  have pruned : Pruned db {db with
      insts := (db.insts.modify (pre.getLast?.getD f) link).free x
      cfg_all_inst := db.cfg_all_inst.set (handleIndex s.handle) none} (fun b => b = x) := by
    refine ⟨rfl,rfl,rfl,rfl,by simp,le_of_lt (Nat.lt_of_lt_of_eq (lt_succ_self _) freed),?_,?_,?_⟩
    · rintro b rfl
      simp only
      rw [cells,if_pos rfl]
    · grind
    · intro b alive
      unfold fatherOf instLinks
      simp only
      rw [cells,if_neg alive]
      by_cases atLink : b = pre.getLast?.getD f
      · rw [if_pos atLink,atLink,found]; simp [parts]
      · rw [if_neg atLink]
  refine ⟨_,unlinkSon_eq tree split son found,pruned,freed,tree.prune pruned ?_ son notRoot rfl rfl⟩
  refine tree.forest.unlinkAt split rfl (instLinks_eq father) (instLinks_eq son) (instLinks_eq found) leaf ?_ ?_ ?_
  · unfold instLinks
    rw [cells,if_pos rfl]; rfl
  · unfold instLinks
    rw [cells,if_neg notGone,if_pos rfl]
    simp only [link,map_some]
    split <;> rfl
  · intro c alive atLink
    unfold instLinks
    rw [cells,if_neg alive,if_neg atLink]

open Forest (Below)

/-- The loop of `delete_son` deletes the sons from `rest` on with all that is below them. -/
theorem deleteSons_tree {fuel : Nat} {rest : List Nat} (split : kids f = pre ++ rest)
    (enough : rest = [] ∨ db.insts.live+(db.insts.size-f) ≤ fuel) : ∃ db' kids', deleteSons fuel db f rest.head? = some db' ∧
      Pruned db db' (fun b => ∃ r ∈ rest, Below kids r b) ∧ InstTree db' kids' ∧ kids' f = pre ∧
      ∀ a, a ≠ f → (¬ ∃ r ∈ rest, Below kids r a) → kids' a = kids a := by
  induction fuel generalizing db kids f pre rest with
  | zero =>
    rcases enough with rfl | little
    · exact ⟨db,kids,rfl,(Pruned.refl db).congr (by simp),tree,by simpa using split,fun _ _ _ => rfl⟩
    · cases rest with
      | nil => exact ⟨db,kids,rfl,(Pruned.refl db).congr (by simp),tree,by simpa using split,fun _ _ _ => rfl⟩
      | cons r rest =>
        obtain ⟨_,live⟩ := tree.forest.father_live (by simp [split] : r ∈ kids f)
        obtain ⟨fi,father,_⟩ := instLinks_some live
        have := Heap.lt_size father
        omega
  | succ fuel ih =>
    cases rest with
    | nil => exact ⟨db,kids,rfl,(Pruned.refl db).congr (by simp),tree,by simpa using split,fun _ _ _ => rfl⟩
    | cons r rest =>
      have little : db.insts.live+(db.insts.size-f) ≤ fuel+1 := by simpa using enough
      have son : r ∈ kids f := by simp [split]
      have older := tree.forest.older son
      obtain ⟨_,live,_⟩ := tree.forest.kid son
      obtain ⟨t,found,rfl⟩ := instLinks_some live
      have bound := Heap.lt_size found
      have sonLink : t.son = (kids r).head? := tree.forest.son_eq live
      have brotherLink : t.brother = rest.head? := tree.forest.brother_eq pre split live
      -- First everything below `r` goes, then `r` itself, then its younger brothers.
      obtain ⟨db1,kids1,sons,pruned1,tree1,leaf,kept1⟩ :=
        ih tree (show kids r = [] ++ kids r from rfl) (.inr (by omega))
      have below_r : ∀ {b}, (∃ q ∈ kids r, Below kids q b) → Below kids r b ∧ b ≠ r := by
        rintro b ⟨q,member,below⟩
        refine ⟨.head member below,?_⟩
        have := tree.forest.below_le below
        have := tree.forest.older member
        omega
      have notUp : ¬ ∃ q ∈ kids r, Below kids q f := fun up => by
        have := tree.forest.below_le (below_r up).1
        omega
      have split1 : kids1 f = pre ++ r :: rest := by rw [kept1 f (by omega) notUp,split]
      obtain ⟨db2,unlinked',pruned2,fewer,tree2⟩ := unlinkSon_tree tree1 split1 leaf
      have size2 : db2.insts.size = db.insts.size := pruned2.size.trans pruned1.size
      have live1 := pruned1.live
      obtain ⟨db3,kids3,brothers,pruned3,tree3,front,kept3⟩ :=
        ih tree2 (show update kids1 f (pre ++ rest) f = pre ++ rest from update_self ..) (.inr (by omega))
      have parts : ∀ b, Below kids r b ↔ (∃ q ∈ kids r, Below kids q b) ∨ b = r := by
        intro b
        constructor
        · intro below
          rcases Relation.ReflTransGen.cases_head below with equal | ⟨q,member,rest⟩
          · exact .inr equal.symm
          · exact .inl ⟨q,member,rest⟩
        · rintro (under | rfl)
          · exact (below_r under).1
          · exact .refl
      -- The subtrees of the younger brothers are untouched so far.
      have same2 : ∀ q ∈ rest, ∀ b, Below (update kids1 f (pre ++ rest)) q b ↔ Below kids q b := by
        intro q member b
        have sonQ : q ∈ kids f := by simp [split,member]
        have distinct : q ≠ r := by
          rintro rfl
          have twice := split ▸ tree.forest.nodup f
          exact (nodup_cons.mp (nodup_append.mp twice).2.1).1 member
        refine Forest.below_congr fun a below => ?_
        have notF : a ≠ f := by
          have := tree.forest.below_le below
          have := tree.forest.older sonQ
          omega
        have notR : ¬ ∃ q ∈ kids r, Below kids q a := fun under =>
          distinct (tree.forest.below_disjoint sonQ son below (below_r under).1)
        rw [update_of_ne notF,kept1 a (fun equal => ?_) notR]
        subst equal
        exact distinct (tree.forest.below_disjoint sonQ son below .refl)
      refine ⟨db3,kids3,?_,?_,tree3,front,?_⟩
      · change (do
          let t ← db.insts.get r
          let db ← deleteSons fuel db r t.son
          let db ← unlinkSon db f r
          deleteSons fuel db f t.brother) = _
        simp only [found,sonLink,sons,unlinked',brotherLink,brothers,bind_eq_bind,bind_some]
      · refine ((pruned1.trans pruned2).trans pruned3).congr fun b => ?_
        simp only [mem_cons,exists_eq_or_imp]
        rw [parts b]
        constructor
        · rintro (here | ⟨q,member,below⟩)
          · exact .inl here
          · exact .inr ⟨q,member,(same2 q member b).mpr below⟩
        · rintro (here | ⟨q,member,below⟩)
          · exact .inl here
          · exact .inr ⟨q,member,(same2 q member b).mp below⟩
      · intro a notF alive
        have aliveR : ¬ Below kids r a := fun below => alive ⟨r,by simp,below⟩
        have alive3 : ¬ ∃ q ∈ rest, Below (update kids1 f (pre ++ rest)) q a := by
          rintro ⟨q,member,below⟩
          exact alive ⟨q,by simp [member],(same2 q member a).mp below⟩
        rw [kept3 a notF alive3,update_of_ne notF]
        exact kept1 a (fun equal => aliveR (equal ▸ .refl)) (fun under => aliveR (below_r under).1)

/-- `delete_son` deletes the son with all that is below it. -/
theorem delete_son_tree (split : kids f = pre ++ x :: post) :
    ∃ db' kids', delete_son db f x = some db' ∧ Pruned db db' (Below kids x) ∧ InstTree db' kids' ∧
      kids' f = pre ++ post ∧ ∀ a, a ≠ f → ¬ Below kids x a → kids' a = kids a := by
  have son : x ∈ kids f := by simp [split]
  have older := tree.forest.older son
  obtain ⟨_,live,_⟩ := tree.forest.kid son
  obtain ⟨s,found,rfl⟩ := instLinks_some live
  have bound := db.insts.live_le_size
  obtain ⟨db1,kids1,sons,pruned1,tree1,leaf,kept1⟩ := deleteSons_tree tree (show kids x = [] ++ kids x from rfl)
    (show kids x = [] ∨ _ ≤ 2*db.insts.size+1 from .inr (by omega))
  have below_x : ∀ {b}, (∃ q ∈ kids x, Below kids q b) → Below kids x b ∧ x < b := by
    rintro b ⟨q,member,below⟩
    refine ⟨.head member below,?_⟩
    have := tree.forest.below_le below
    have := tree.forest.older member
    omega
  have split1 : kids1 f = pre ++ x :: post := by
    rw [kept1 f (by omega) (fun up => by have := (below_x up).2; omega),split]
  obtain ⟨db2,unlinked',pruned2,_,tree2⟩ := unlinkSon_tree tree1 split1 leaf
  refine ⟨db2,_,?_,?_,tree2,update_self ..,?_⟩
  · have sonLink : s.son = (kids x).head? := tree.forest.son_eq live
    simp only [delete_son,found,sonLink,sons,unlinked',bind_eq_bind,bind_some]
  · refine (pruned1.trans pruned2).congr fun b => ?_
    constructor
    · intro below
      rcases Relation.ReflTransGen.cases_head below with equal | ⟨q,member,rest⟩
      · exact .inr equal.symm
      · exact .inl ⟨q,member,rest⟩
    · rintro (under | rfl)
      · exact (below_x under).1
      · exact .refl
  · intro a notF alive
    rw [update_of_ne notF]
    exact kept1 a (fun equal => alive (equal ▸ .refl)) (fun under => alive (below_x under).1)
end

section
variable {db db' : Db} {kids : Nat → List Nat}

/-- An instance without its flags and its value. -/
def spine (i : CfgInstance) : CfgInstance := {i with added := false,remove := false,val := .none}

/-- Flags and values may change; the root is not scheduled for removal. -/
theorem InstTree.setInst (tree : InstTree db kids) {a : Nat} {g : CfgInstance → CfgInstance}
    (same : ∀ x, spine (g x) = spine x) (keeps : a ≠ cfg_inst_root ∨ ∀ x, (g x).remove = x.remove) :
    InstTree (db.setInst a g) kids := by
  have fields : ∀ x, (g x).toLinks = x.toLinks ∧ (g x).handle = x.handle ∧ (g x).oid = x.oid ∧
      (g x).name = x.name ∧ (g x).obj = x.obj := by grind [spine]
  have cells : ∀ b, (db.setInst a g).insts.get b = (db.insts.get b).map (if b = a then g else id) := by grind [Heap.get_modify,Db.setInst]
  have backward : ∀ {b x'}, (db.setInst a g).insts.get b = some x' → ∃ x, db.insts.get b = some x ∧
      x'.toLinks = x.toLinks ∧ x'.handle = x.handle ∧ x'.oid = x.oid ∧ x'.name = x.name ∧ x'.obj = x.obj := by
    intro b x' found'
    rw [cells] at found'
    obtain ⟨x,found,rfl⟩ := of_map found'
    refine ⟨x,found,?_⟩
    by_cases here : b = a
    · simp [here,fields]
    · simp [here]
  have links : instLinks (db.setInst a g) = instLinks db := by
    funext b
    unfold instLinks
    rw [cells,Option.map_map]
    congr 1
    funext x
    by_cases here : b = a
    · simp [here,fields]
    · simp [here]
  obtain ⟨r,rootFound,rootOid,rootName,rootObj,rootHandle,rootStays⟩ := tree.root
  refine ⟨by rw [links]; exact tree.forest,?_,?_,?_,?_,tree.first,?_,?_,tree.chunks⟩
  · grind
  · intro b c x' p' found' up foundF'
    obtain ⟨x,found,linksX,_,oidX,nameX,objX⟩ := backward found'
    obtain ⟨p,foundF,_,_,oidP,_,objP⟩ := backward foundF'
    rw [oidX,oidP,nameX,objX,objP]
    exact tree.path found ((congrArg Links.father linksX).symm.trans up) foundF
  · intro b x' found' notRoot
    obtain ⟨x,found,_,handle,_⟩ := backward found'
    rw [handle]; exact tree.entry found notRoot
  · intro j b there
    rcases tree.slot there with top | ⟨notRoot,x,found,handle⟩
    · exact .inl top
    · refine .inr ⟨notRoot,_,by rw [cells,found]; rfl,?_⟩
      by_cases here : b = a
      · rw [if_pos here,(fields x).2.1,handle]
      · rw [if_neg here]; exact handle
  · intro b x' found' notRoot
    obtain ⟨x,found,_,handle,_⟩ := backward found'
    rw [handle]; exact tree.number found notRoot
  · simpa [Db.setInst] using tree.seq
/-- The tree of instances sees of an object its father and its subid. -/
theorem InstTree.objects (tree : InstTree db kids) (insts : db'.insts = db.insts)
    (table : db'.cfg_all_inst = db.cfg_all_inst) (seq : db'.cfg_inst_seq_num = db.cfg_inst_seq_num)
    (kept : ∀ {a i o}, db.insts.get a = some i → db.objs.get i.obj = some o →
      ∃ o', db'.objs.get i.obj = some o' ∧ o'.father = o.father ∧ o'.subid = o.subid) : InstTree db' kids where
  forest := by
    have same : instLinks db' = instLinks db := by unfold instLinks; rw [insts]
    rw [same]; exact tree.forest
  root := by rw [insts]; exact tree.root
  path := by
    intro a f i p found father foundF
    rw [insts] at found foundF
    obtain ⟨o,object,up,comps⟩ := tree.path found father foundF
    obtain ⟨o',object',fatherSame,subid⟩ := kept found object
    exact ⟨o',object',by rw [fatherSame,up],by rw [subid,comps]⟩
  entry := by rw [insts,table]; exact tree.entry
  slot := by rw [insts,table]; exact tree.slot
  first := by rw [table]; exact tree.first
  number := by rw [insts]; exact tree.number
  seq := by rw [insts,seq]; exact tree.seq
  chunks := by rw [table]; exact tree.chunks
end
end TestEnvironment.Configurator
