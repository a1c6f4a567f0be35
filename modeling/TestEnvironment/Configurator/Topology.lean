import TestEnvironment.Configurator.Dependencies
import TestEnvironment.Lib.Ordering

/-!
The topological order of the objects: the list headed by `topological_order`
holds every object but the reserved ones, sorted by the ordinal numbers, and
these grow along each dependency. A dependency whose master has too great a
number pushes the dependent object and, recursively, all that depend on it.
The recursion ends because the dependencies have no cycle: its depth is bounded
by the rank that they give each object.
-/
namespace TestEnvironment.Configurator
open Lib

def nextOf (db : Db) : Nat → Option (Option Nat) := linkOf db.objs CfgObject.dep_next
def prevOf (db : Db) : Nat → Option (Option Nat) := linkOf db.objs CfgObject.dep_prev
def ordOf (db : Db) (a : Nat) : Nat := ((db.objs.get a).map CfgObject.ordinal_number).getD 0
/-- What the topological order reads of an object. -/
def orderLinks (o : CfgObject) : Option Nat × Option Nat := (o.dep_next,o.dep_prev)

/-- The object `m` is a master of the object `a`. -/
def Depends (db : Db) (m a : Nat) : Prop := ∃ x d, db.objs.get a = some x ∧ d ∈ x.depends_on ∧ d.depends = m

/-- The list headed by `topological_order`. -/
structure Listed (db : Db) (l : List Nat) : Prop where
  size : CFG_OBJ_HANDLE_NUM_RSRVD ≤ db.objs.size
  head : db.topological_order = l.head?
  linked : Linked (nextOf db) (prevOf db) l
  members : ∀ a, a ∈ l ↔ CFG_OBJ_HANDLE_NUM_RSRVD ≤ a ∧ ∃ x, db.objs.get a = some x
  reserved : ∀ {a x}, a < CFG_OBJ_HANDLE_NUM_RSRVD → db.objs.get a = some x → x.dep_next = none ∧ x.dep_prev = none

/-- The list is sorted, and a master has a smaller number than what depends on it. -/
structure Ordered (db : Db) (l : List Nat) : Prop extends Listed db l where
  sorted : l.Pairwise fun a b => ordOf db a ≤ ordOf db b
  rising : ∀ {m a}, Depends db m a → ordOf db m < ordOf db a

section
variable {db db' : Db} {a x : Nat} {o : CfgObject} {p q : Option Nat} {l pre post : List Nat}

theorem nextOf_eq (found : db.objs.get a = some o) : nextOf db a = some o.dep_next := by simp [nextOf,linkOf,found]
theorem prevOf_eq (found : db.objs.get a = some o) : prevOf db a = some o.dep_prev := by simp [prevOf,linkOf,found]
theorem ordOf_eq (found : db.objs.get a = some o) : ordOf db a = o.ordinal_number := by simp [ordOf,found]

@[simp] theorem linkPrev_head (db : Db) (p q : Option Nat) : (linkPrev db p q).topological_order = db.topological_order := by
  cases p <;> rfl
theorem linkNext_head (db : Db) (p q : Option Nat) :
    (linkNext db p q).topological_order = if p = none then q else db.topological_order := by cases p <;> rfl
variable {upd : CfgObject → CfgObject}

theorem linkOf_kept {f : CfgObject → Option Nat} (keeps : ∀ o, f (upd o) = f o) :
    linkOf (db.setObj a upd).objs f = linkOf db.objs f := by
  funext b
  simp only [linkOf,setObj_get]
  by_cases here : b = a
  · rw [if_pos here,here]
    cases db.objs.get a <;> simp [keeps]
  · rw [if_neg here]
theorem linkOf_set {f : CfgObject → Option Nat} (sets : ∀ o, f (upd o) = q) (b : Nat) :
    linkOf (db.setObj a upd).objs f b = if some a = some b then (linkOf db.objs f b).map fun _ => q else linkOf db.objs f b := by
  simp only [linkOf,setObj_get,some_inj]
  by_cases here : a = b
  · subst here
    rw [if_pos rfl,if_pos rfl]
    cases db.objs.get a <;> simp [sets]
  · rw [if_neg here,if_neg (Ne.symm here)]
@[simp] theorem nextOf_linkPrev (db : Db) (p q : Option Nat) : nextOf (linkPrev db p q) = nextOf db := by
  cases p with
  | none => rfl
  | some p => exact linkOf_kept fun _ => rfl
@[simp] theorem prevOf_linkNext (db : Db) (p q : Option Nat) : prevOf (linkNext db p q) = prevOf db := by
  cases p with
  | none => rfl
  | some p => exact linkOf_kept fun _ => rfl
theorem nextOf_linkNext (db : Db) (p q : Option Nat) (b : Nat) :
    nextOf (linkNext db p q) b = if p = some b then (nextOf db b).map fun _ => q else nextOf db b := by
  cases p with
  | none => rfl
  | some p => exact linkOf_set (f := CfgObject.dep_next) (fun _ => by rfl) b
theorem prevOf_linkPrev (db : Db) (p q : Option Nat) (b : Nat) :
    prevOf (linkPrev db p q) b = if p = some b then (prevOf db b).map fun _ => q else prevOf db b := by
  cases p with
  | none => rfl
  | some p => exact linkOf_set (f := CfgObject.dep_prev) (fun _ => by rfl) b

theorem Agree.nextOf (agree : Agree orderLinks db db') : nextOf db' = nextOf db := by
  funext b
  have same := congrArg (Option.map Prod.fst) (agree.objs b)
  simpa [Option.map_map,comp_def,Configurator.nextOf,linkOf,orderLinks] using same
theorem Agree.prevOf (agree : Agree orderLinks db db') : prevOf db' = prevOf db := by
  funext b
  have same := congrArg (Option.map Prod.snd) (agree.objs b)
  simpa [Option.map_map,comp_def,Configurator.prevOf,linkOf,orderLinks] using same
theorem Agree.ordOf (agree : Agree CfgObject.ordinal_number db db') : ordOf db' = ordOf db := by
  funext b
  simp only [Configurator.ordOf,agree.objs]
theorem Agree.alive {β : Type} {g : CfgObject → β} (agree : Agree g db db') (a : Nat) :
    (∃ x, db'.objs.get a = some x) ↔ ∃ x, db.objs.get a = some x := by
  simp only [← isSome_iff_exists,agree.live]

section
variable (listed : Listed db l)
include listed
theorem Listed.agree (agree : Agree orderLinks db db')
    (head : db'.topological_order = db.topological_order) : Listed db' l where
  size := by rw [agree.size]; exact listed.size
  head := head.trans listed.head
  linked := by rw [agree.nextOf,agree.prevOf]; exact listed.linked
  members a := by rw [listed.members,agree.alive]
  reserved {a x'} small found := by
    obtain ⟨x,before,same⟩ := agree.backward found
    obtain ⟨noNext,noPrev⟩ := listed.reserved small before
    exact ⟨(congrArg Prod.fst same).symm.trans noNext,(congrArg Prod.snd same).symm.trans noPrev⟩
theorem Listed.live {a : Nat} (member : a ∈ l) : ∃ x, db.objs.get a = some x :=
  ((listed.members a).mp member).2
theorem Listed.last_live (split : l = pre ++ post) {q : Nat} (last : pre.getLast? = some q) :
    ∃ x, db.objs.get q = some x := listed.live (by rw [split]; exact mem_append_left _ (mem_of_getLast? last))
theorem Listed.first_live (split : l = pre ++ post) {q : Nat} (first : post.head? = some q) :
    ∃ x, db.objs.get q = some x := listed.live (by rw [split]; exact mem_append_right _ (mem_of_mem_head? first))

/-- The neighbours of an object are linked with each other. -/
theorem erased_links (split : l = pre ++ x :: post) (next : ∀ b, b ≠ x →
      nextOf db' b = if pre.getLast? = some b then (nextOf db b).map fun _ => post.head? else nextOf db b)
    (prev : ∀ b, b ≠ x →
      prevOf db' b = if post.head? = some b then (prevOf db b).map fun _ => pre.getLast? else prevOf db b) :
    Linked (nextOf db') (prevOf db') (pre ++ post) := by
  have linked := listed.linked
  rw [split] at linked
  have other : ∀ {b}, b ∈ pre ++ post → b ≠ x := by
    rintro b member rfl
    exact (nodup_cons.mp (List.nodup_middle.mp linked.nodup)).1 member
  refine linked.eraseAt (fun q last => ?_) (fun q first => ?_) (fun a notX notLast => ?_) (fun a notX notFirst => ?_)
  · obtain ⟨y,found⟩ := listed.last_live split last
    rw [next q (other (mem_append_left _ (mem_of_getLast? last))),if_pos last,nextOf_eq found]; rfl
  · have behind : l = (pre ++ [x]) ++ post := by simpa using split
    obtain ⟨y,found⟩ := listed.first_live behind first
    rw [prev q (other (mem_append_right _ (mem_of_mem_head? first))),if_pos first,prevOf_eq found]; rfl
  · rw [next a notX,if_neg notLast]
  · rw [prev a notX,if_neg notFirst]
end
/-- An object that is not in the list is put between two neighbours. -/
theorem inserted_links (linked : Linked (nextOf db) (prevOf db) (pre ++ post)) (absent : x ∉ pre ++ post)
    (live : ∀ a ∈ pre ++ post, ∃ y, db.objs.get a = some y)
    (next : ∀ b, nextOf db' b = if b = x then some post.head? else
      if pre.getLast? = some b then (nextOf db b).map fun _ => some x else nextOf db b)
    (prev : ∀ b, prevOf db' b = if b = x then some pre.getLast? else
      if post.head? = some b then (prevOf db b).map fun _ => some x else prevOf db b) :
    Linked (nextOf db') (prevOf db') (pre ++ x :: post) := by
  have other : ∀ {b}, b ∈ pre ++ post → b ≠ x := by rintro b member rfl; exact absent member
  refine linked.insertAt absent ?_ ?_ (fun q last => ?_) (fun q first => ?_) (fun a notX notLast => ?_)
    (fun a notX notFirst => ?_)
  · rw [next,if_pos rfl]
  · rw [prev,if_pos rfl]
  · have member : q ∈ pre ++ post := mem_append_left _ (mem_of_getLast? last)
    obtain ⟨y,found⟩ := live q member
    rw [next,if_neg (other member),if_pos last,nextOf_eq found]; rfl
  · have member : q ∈ pre ++ post := mem_append_right _ (mem_of_mem_head? first)
    obtain ⟨y,found⟩ := live q member
    rw [prev,if_neg (other member),if_pos first,prevOf_eq found]; rfl
  · rw [next,if_neg notX,if_neg notLast]
  · rw [prev,if_neg notX,if_neg notFirst]
end

section
variable {db : Db} {l pre mid post : List Nat} {obj : Nat} {o : CfgObject}

/-- All but the object `obj` are in their places, and nothing before it is greater. -/
def SortedBut (db : Db) (obj : Nat) (l : List Nat) : Prop := l.Pairwise fun a b => a = obj ∨ ordOf db a ≤ ordOf db b

/-- The loop of `cfg_put_in_order_dep` goes on as long as this holds. -/
theorem smaller_test (found : db.objs.get obj = some o) :
    (fun b => !testAt db.objs (fun x => decide (x.ordinal_number > o.ordinal_number)) b) =
      fun b => decide (ordOf db b ≤ ordOf db obj) := by
  funext b
  cases there : db.objs.get b with
  | none => simp [testAt,ordOf,there]
  | some x => grind [testAt,ordOf]
theorem without_obj (distinct : (pre ++ obj :: post).Nodup) : obj ∉ pre ++ post :=
  (nodup_cons.mp (List.nodup_middle.mp distinct)).1
theorem sorted_place (distinct : (pre ++ obj :: post).Nodup) (sorted : SortedBut db obj (pre ++ obj :: post)) :
    (pre ++ (post.takeWhile (fun b => decide (ordOf db b ≤ ordOf db obj)) ++
      obj :: post.dropWhile fun b => decide (ordOf db b ≤ ordOf db obj))).Pairwise
      fun a b => ordOf db a ≤ ordOf db b := by
  obtain ⟨sortedPre,sortedRest,across⟩ := pairwise_append.mp sorted
  obtain ⟨_,sortedPost⟩ := pairwise_cons.mp sortedRest
  have unequal : ∀ {b}, b ∈ pre ++ post → b ≠ obj := by
    rintro b member rfl
    exact without_obj distinct member
  have other {b} (member : b ∈ pre) : b ≠ obj := unequal (mem_append_left _ member)
  refine pairwise_append.mpr ⟨?_,pairwise_place ?_,fun a inPre b inRest => ?_⟩
  · exact sortedPre.imp_of_mem fun member _ le => le.resolve_left (other member)
  · exact sortedPost.imp_of_mem fun member _ le => le.resolve_left (unequal (mem_append_right _ member))
  · refine (across a inPre b ?_).resolve_left (other inPre)
    rcases mem_append.mp inRest with first | rest
    · exact mem_cons_of_mem _ (List.takeWhile_subset _ first)
    · rcases mem_cons.mp rest with rfl | later
      · exact mem_cons_self
      · exact mem_cons_of_mem _ (List.dropWhile_subset _ later)

/-- The object is unlinked and linked again behind `mid`. -/
theorem moved_listed (listed : Listed db l) (split : l = pre ++ obj :: (mid ++ post)) {last : Nat}
    (isLast : mid.getLast? = some last) : Listed
      ((linkPrev (linkNext (linkNext (linkPrev db (mid ++ post).head? pre.getLast?) pre.getLast? (mid ++ post).head?)
        (some last) (some obj)) post.head? (some obj)).setObj obj
          fun x => {x with dep_next := post.head?,dep_prev := some last}) (pre ++ (mid ++ obj :: post)) := by
  have distinct := split ▸ listed.linked.nodup
  have absent := without_obj distinct
  obtain ⟨o,found⟩ := listed.live (show obj ∈ l by rw [split]; simp)
  -- First the object leaves the list.
  generalize erased : linkNext (linkPrev db (mid ++ post).head? pre.getLast?) pre.getLast? (mid ++ post).head? = db1
  have agree1 : Agree unordered db db1 := erased ▸ (linkPrev_agree ..).trans (linkNext_agree ..)
  have linked1 : Linked (nextOf db1) (prevOf db1) (pre ++ (mid ++ post)) := by
    refine erased_links listed split (fun b _ => ?_) (fun b _ => ?_)
    · rw [← erased,nextOf_linkNext,nextOf_linkPrev]
    · rw [← erased,prevOf_linkNext,prevOf_linkPrev]
  have live1 : ∀ a ∈ pre ++ (mid ++ post), ∃ y, db1.objs.get a = some y := by
    intro a member
    refine (agree1.alive a).mpr (listed.live ?_)
    rw [split]
    simp only [mem_append,mem_cons] at member ⊢
    tauto
  have head1 : db1.topological_order = (pre ++ (mid ++ post)).head? := by
    rw [← erased,linkNext_head,linkPrev_head]
    rcases eq_nil_or_concat pre with rfl | ⟨front,q,rfl⟩
    · simp
    · simp [listed.head,split]
  -- Then it is put behind `mid`.
  have isLast' : (pre ++ mid).getLast? = some last := by simp [isLast]
  obtain ⟨o1,found1,_⟩ := agree1.forward found
  generalize moved : (linkPrev (linkNext db1 (some last) (some obj)) post.head? (some obj)).setObj obj
    (fun x => {x with dep_next := post.head?,dep_prev := some last}) = db2
  have agree2 : Agree unordered db1 db2 :=
    moved ▸ ((linkNext_agree ..).trans (linkPrev_agree ..)).trans (Agree.setObj _ _ fun _ => rfl)
  have own : ∀ b, nextOf db2 b = (if b = obj then some post.head? else
        nextOf (linkPrev (linkNext db1 (some last) (some obj)) post.head? (some obj)) b) ∧
      prevOf db2 b = if b = obj then some (some last) else
        prevOf (linkPrev (linkNext db1 (some last) (some obj)) post.head? (some obj)) b := by
    intro b
    obtain ⟨x,here,_⟩ := ((linkNext_agree db1 (some last) (some obj)).trans
      (linkPrev_agree _ post.head? (some obj))).forward found1
    rw [← moved]
    simp only [nextOf,prevOf,linkOf,setObj_get]
    by_cases isObj : b = obj
    · simp [isObj,here]
    · simp [isObj]
  have linked2 : Linked (nextOf db2) (prevOf db2) ((pre ++ mid) ++ obj :: post) := by
    refine inserted_links (by simpa using linked1) (by simpa using absent) (by simpa using live1) (fun b => ?_)
      (fun b => ?_)
    · rw [(own b).1,nextOf_linkPrev,nextOf_linkNext,isLast']
    · rw [(own b).2,prevOf_linkPrev,prevOf_linkNext,isLast']
  have agree := agree1.trans agree2
  refine ⟨by rw [agree.size]; exact listed.size,?_,by simpa using linked2,fun a => ?_,fun {a x'} small there => ?_⟩
  · have head2 : db2.topological_order = db1.topological_order := by
      rw [← moved]
      simp [Db.setObj,linkNext_head]
    rw [head2,head1]
    cases pre <;> cases mid <;> simp_all
  · rw [agree.alive,← listed.members,split]
    simp only [mem_append,mem_cons]
    tauto
  · obtain ⟨x,before⟩ := (agree.alive a).mp ⟨x',there⟩
    obtain ⟨noNext,noPrev⟩ := listed.reserved small before
    have notIn : a ∉ l := fun member => absurd ((listed.members a).mp member).1 (not_le.mpr small)
    have notObj : a ≠ obj := by rintro rfl; exact notIn (by simp [split])
    have away : pre.getLast? ≠ some a ∧ (mid ++ post).head? ≠ some a ∧ last ≠ a ∧ post.head? ≠ some a := by
      refine ⟨fun is => notIn ?_,fun is => notIn ?_,fun is => notIn ?_,fun is => notIn ?_⟩
      · simp [split,mem_of_getLast? is]
      · have := mem_of_mem_head? is
        simp only [split,mem_append,mem_cons] at this ⊢
        tauto
      · have := mem_of_getLast? isLast
        simp [split,← is,this]
      · simp [split,mem_of_mem_head? is]
    obtain ⟨away1,away2,away3,away4⟩ := away
    constructor
    · have same := (own a).1
      rw [if_neg notObj,nextOf_linkPrev,nextOf_linkNext,if_neg (by simpa using away3),← erased,nextOf_linkNext,
        if_neg away1,nextOf_linkPrev,nextOf_eq there,nextOf_eq before,noNext] at same
      exact some.inj same
    · have same := (own a).2
      rw [if_neg notObj,prevOf_linkPrev,if_neg away4,prevOf_linkNext,← erased,prevOf_linkNext,prevOf_linkPrev,
        if_neg away2,prevOf_eq there,prevOf_eq before,noPrev] at same
      exact some.inj same

/-- The object is put behind all that follow it and do not have a greater number. -/
theorem moveBehind_spec (listed : Listed db l) (alive : ∃ o, db.objs.get obj = some o) (sorted : SortedBut db obj l) :
    ∃ db' l', moveBehind db obj = some db' ∧ Agree unordered db db' ∧ Listed db' l' ∧
      l'.Pairwise fun a b => ordOf db a ≤ ordOf db b := by
  obtain ⟨o,found⟩ := alive
  unfold moveBehind
  simp only [found,bind_eq_bind,bind_some]
  by_cases inside : obj ∈ l
  · obtain ⟨pre,post,split⟩ := append_of_mem inside
    obtain ⟨isNext,isPrev⟩ := listed.linked.links pre split
    rw [nextOf_eq found,some_inj] at isNext
    rw [prevOf_eq found,some_inj] at isPrev
    have placed := sorted_place (split ▸ listed.linked.nodup) (split ▸ sorted)
    have pieces := takeWhile_append_dropWhile (p := fun b => decide (ordOf db b ≤ ordOf db obj)) (l := post)
    cases next : post with
    | nil =>
      simp only [isNext,next,List.head?_nil]
      refine ⟨db,l,rfl,Agree.refl ..,listed,?_⟩
      simpa [split,next] using placed
    | cons n rest =>
      obtain ⟨y,there⟩ := listed.live (show n ∈ l by simp [split,next])
      have numbers : (ordOf db n ≤ ordOf db obj) = (y.ordinal_number ≤ o.ordinal_number) := by
        rw [ordOf_eq there,ordOf_eq found]
      have isHead : o.dep_next = some n := by rw [isNext,next]; rfl
      simp only [isHead,there,bind_some]
      by_cases le : y.ordinal_number ≤ o.ordinal_number
      · rw [if_pos le]
        have chain := (listed.linked.forward.after pre split).2
        rw [← isNext,isHead] at chain
        rw [scanPrev_split chain,smaller_test found]
        generalize middle : post.takeWhile (fun b => decide (ordOf db b ≤ ordOf db obj)) = mid at placed pieces ⊢
        generalize after : post.dropWhile (fun b => decide (ordOf db b ≤ ordOf db obj)) = post' at placed pieces ⊢
        obtain ⟨mid',isCons⟩ : ∃ mid', mid = n :: mid' := by
          rw [← middle,next,List.takeWhile_cons_of_pos (by simpa [numbers] using le)]
          exact ⟨_,rfl⟩
        obtain ⟨last,isLast⟩ : ∃ last, mid.getLast? = some last := by
          rw [isCons,getLast?_cons]
          exact ⟨_,rfl⟩
        have moved := moved_listed listed (show l = pre ++ obj :: (mid ++ post') by rw [pieces]; exact split) isLast
        rw [pieces,← isNext,isHead,← isPrev] at moved
        refine ⟨_,_,?_,?_,moved,placed⟩
        · simp [isLast]
        · exact (linkPrev_agree ..).trans ((linkNext_agree ..).trans ((linkNext_agree ..).trans
            ((linkPrev_agree ..).trans (Agree.setObj _ obj fun _ => rfl))))
      · rw [if_neg le]
        refine ⟨db,l,rfl,Agree.refl ..,listed,?_⟩
        rw [next,List.takeWhile_cons_of_neg (by simpa [numbers] using le),
          dropWhile_cons_of_neg (by simpa [numbers] using le)] at placed
        simpa [split,next] using placed
  · -- A reserved object is not in the list, and has no neighbours.
    have small : obj < CFG_OBJ_HANDLE_NUM_RSRVD := by
      by_contra large
      exact inside ((listed.members obj).mpr ⟨not_lt.mp large,o,found⟩)
    simp only [(listed.reserved small found).1]
    refine ⟨db,l,rfl,Agree.refl ..,listed,sorted.imp_of_mem fun member _ le => le.resolve_left ?_⟩
    rintro rfl
    exact inside member
end

variable {fuel : Nat} {ds : List CfgDependency}

section
variable {db db' : Db} {l : List Nat} {obj : Nat} {r : Nat → Nat} {n : Nat}

/-- The ordinal numbers and the ranks leave room for every number to grow by its
    rank; the ranks are below `n`. -/
def Roomy (r : Nat → Nat) (n : Nat) (db : Db) : Prop :=
  ∀ a x, db.objs.get a = some x → r a < n ∧ x.ordinal_number+n ≤ UINT_MOD+r a
/-- The dependants of each object have a greater rank, and they are registered. -/
def RankedDown (r : Nat → Nat) (db : Db) : Prop :=
  ∀ a x, db.objs.get a = some x → ∀ d ∈ x.dependants, r a < r d.depends ∧ ∃ y, db.objs.get d.depends = some y
/-- The number of the object `a` is smaller than those of its dependants. -/
def RisesAt (db : Db) (a : Nat) : Prop := ∀ x, db.objs.get a = some x → ∀ d ∈ x.dependants, ordOf db a < ordOf db d.depends

theorem Agree.dependants_of (agree : Agree unnumbered db db') : Agree CfgObject.dependants db db' :=
  agree.comp CfgObject.dependants fun _ => rfl
theorem Agree.rankedDown (agree : Agree CfgObject.dependants db db') (ranked : RankedDown r db) : RankedDown r db' := by
  intro a x' found d member
  obtain ⟨x,before,same⟩ := agree.backward found
  rw [← same] at member
  obtain ⟨rise,live⟩ := ranked a x before d member
  exact ⟨rise,(agree.alive _).mpr live⟩
theorem Agree.ordinal_of (agree : Agree unordered db db') : Agree CfgObject.ordinal_number db db' :=
  agree.comp CfgObject.ordinal_number fun _ => rfl
/-- Numbers that only grow keep what rises to them, if its own number stays. -/
theorem RisesAt.grow (agree : Agree CfgObject.dependants db db') {a : Nat} (rises : RisesAt db a) (same : ordOf db' a = ordOf db a)
    (grow : ∀ b, ordOf db b ≤ ordOf db' b) : RisesAt db' a := by
  intro x' found d member
  obtain ⟨x,before,isSame⟩ := agree.backward found
  have := rises x before d (by rw [isSame]; exact member)
  have := grow d.depends
  omega
theorem setOrdinal_ord (found : ∃ x, db.objs.get obj = some x) (m b : Nat) :
    ordOf (setOrdinal db obj m) b = if b = obj then m % UINT_MOD else ordOf db b := by
  obtain ⟨x,found⟩ := found
  by_cases here : b = obj
  · simp [ordOf,setOrdinal,here,found]
  · simp [ordOf,setOrdinal,here]

/-- What a call of `cfg_put_in_order_dep` has to find: the object may have too
    great a number for its place and for its dependants, all objects of its rank
    or above are right. -/
structure PutPre (r : Nat → Nat) (n : Nat) (db : Db) (obj : Nat) (l : List Nat) : Prop where
  listed : Listed db l
  alive : ∃ o, db.objs.get obj = some o
  sorted : SortedBut db obj l
  roomy : Roomy r n db
  down : RankedDown r db
  rises : ∀ a, r obj ≤ r a → a ≠ obj → RisesAt db a
/-- What the call leaves behind. -/
structure PutPost (r : Nat → Nat) (n : Nat) (db : Db) (obj : Nat) (db' : Db) (l : List Nat) : Prop where
  agree : Agree unnumbered db db'
  listed : Listed db' l
  sorted : l.Pairwise fun a b => ordOf db' a ≤ ordOf db' b
  roomy : Roomy r n db'
  grow : ∀ a, ordOf db a ≤ ordOf db' a
  low : ∀ a, r a ≤ r obj → ordOf db' a = ordOf db a
  rises : ∀ a, r obj ≤ r a → RisesAt db' a

/-- The loop over the dependants: those before are right, those behind may not be. -/
structure PutLoop (r : Nat → Nat) (n : Nat) (start : Db) (obj : Nat) (done : List CfgDependency) (db : Db) (l : List Nat) :
    Prop where
  agree : Agree unnumbered start db
  listed : Listed db l
  sorted : l.Pairwise fun a b => ordOf db a ≤ ordOf db b
  roomy : Roomy r n db
  grow : ∀ a, ordOf start a ≤ ordOf db a
  low : ∀ a, r a ≤ r obj → ordOf db a = ordOf start a
  rises : ∀ a, r obj ≤ r a → a ≠ obj → RisesAt db a
  done : ∀ d ∈ done, ordOf db obj < ordOf db d.depends

/-- One dependant: if its number is not greater it becomes so and is put in order. -/
theorem PutLoop.step {start : Db} {done : List CfgDependency} {dep : CfgDependency} (down : RankedDown r start)
    (alive : ∃ o, start.objs.get obj = some o) (loop : PutLoop r n start obj done db l) (rank : r obj < r dep.depends)
    (live : ∃ y, start.objs.get dep.depends = some y) (call : ∀ {db l}, PutPre r n db dep.depends l →
      ∃ db' l', cfg_put_in_order_dep fuel db dep.depends = some db' ∧ PutPost r n db dep.depends db' l') : ∃ db' l', (do
      let o ← db.objs.get obj
      let d ← db.objs.get dep.depends
      if d.ordinal_number ≤ o.ordinal_number then
        cfg_put_in_order_dep fuel (setOrdinal db dep.depends (o.ordinal_number+1)) dep.depends
      else some db) = some db' ∧ PutLoop r n start obj (done ++ [dep]) db' l' := by
  obtain ⟨o,foundO⟩ := (loop.agree.alive _).mpr alive
  obtain ⟨y,foundD⟩ := (loop.agree.alive _).mpr live
  simp only [foundO,foundD,bind_eq_bind,bind_some]
  by_cases late : y.ordinal_number ≤ o.ordinal_number
  · rw [if_pos late]
    have room := loop.roomy obj o foundO
    have top := (loop.roomy dep.depends y foundD).1
    have fits : (o.ordinal_number+1) % UINT_MOD = o.ordinal_number+1 := mod_eq_of_lt (by omega)
    have numbers : ∀ b, ordOf (setOrdinal db dep.depends (o.ordinal_number+1)) b =
        if b = dep.depends then o.ordinal_number+1 else ordOf db b := by
      intro b
      rw [setOrdinal_ord ⟨y,foundD⟩,fits]
    have grow : ∀ b, ordOf db b ≤ ordOf (setOrdinal db dep.depends (o.ordinal_number+1)) b := by
      intro b
      rw [numbers]
      split
      · rename_i here
        rw [here,ordOf_eq foundD]; omega
      · exact le_rfl
    have agree := setOrdinal_agree db dep.depends (o.ordinal_number+1)
    have before : PutPre r n (setOrdinal db dep.depends (o.ordinal_number+1)) dep.depends l := by
      refine ⟨loop.listed.agree (Agree.setObj _ _ fun _ => rfl) rfl,(agree.alive _).mpr ⟨y,foundD⟩,?_,?_,
        (loop.agree.trans agree).dependants_of.rankedDown down,fun a above other => ?_⟩
      · refine loop.sorted.imp fun {a b} le => ?_
        by_cases here : a = dep.depends
        · exact .inl here
        · grind
      · intro a x found
        rw [setOrdinal,setObj_get] at found
        split at found
        · grind
        · exact loop.roomy a x found
      · refine (loop.rises a (by omega) ?_).grow agree.dependants_of (by rw [numbers,if_neg other]) grow
        rintro rfl; omega
    obtain ⟨db',l',put,post⟩ := call before
    refine ⟨db',l',put,loop.agree.trans (agree.trans post.agree),post.listed,post.sorted,post.roomy,
      fun a => ?_,fun a small => ?_,fun a above other => ?_,fun d member => ?_⟩
    · have := loop.grow a
      have := grow a
      have := post.grow a
      omega
    · have notDep : a ≠ dep.depends := by rintro rfl; omega
      rw [post.low a (by omega),numbers,if_neg notDep,loop.low a small]
    · by_cases high : r dep.depends ≤ r a
      · exact post.rises a high
      · have notDep : a ≠ dep.depends := by rintro rfl; omega
        refine (loop.rises a above other).grow (agree.trans post.agree).dependants_of ?_ fun b => le_trans (grow b) (post.grow b)
        rw [post.low a (by omega),numbers,if_neg notDep]
    · have notDep : obj ≠ dep.depends := fun same => by rw [same] at rank; omega
      rw [post.low obj (by omega),numbers,if_neg notDep]
      rcases mem_append.mp member with old | new
      · have := loop.done d old
        have := grow d.depends
        have := post.grow d.depends
        omega
      · have isDep : d = dep := by simpa using new
        have own := numbers dep.depends
        rw [if_pos rfl] at own
        have := post.grow dep.depends
        rw [isDep,ordOf_eq foundO]
        omega
  · rw [if_neg late]
    refine ⟨db,l,rfl,{loop with done := fun d member => ?_}⟩
    rcases mem_append.mp member with old | new
    · exact loop.done d old
    · grind [ordOf_eq]
/-- `cfg_put_in_order_dep` returns: the calls nest at most as deep as ranks are left. -/
theorem put_spec (enough : n ≤ fuel+r obj) (pre : PutPre r n db obj l) :
    ∃ db' l', cfg_put_in_order_dep fuel db obj = some db' ∧ PutPost r n db obj db' l' := by
  induction fuel generalizing db obj l with
  | zero =>
    obtain ⟨o,found⟩ := pre.alive
    have := (pre.roomy obj o found).1
    omega
  | succ fuel ih =>
    obtain ⟨db1,l1,moved,agree1,listed1,sorted1⟩ := moveBehind_spec pre.listed pre.alive pre.sorted
    have numbers : ordOf db1 = ordOf db := agree1.ordinal_of.ordOf
    obtain ⟨o,found⟩ := pre.alive
    obtain ⟨o1,found1,same⟩ := agree1.forward found
    have sameList : o1.dependants = o.dependants :=
      show (unordered o1).dependants = (unordered o).dependants by rw [same]
    have start : PutLoop r n db obj [] db1 l1 := by
      refine ⟨agree1.unnumbered_of,listed1,by rw [numbers]; exact sorted1,?_,fun a => by rw [numbers],
        fun a _ => by rw [numbers],fun a above other => ?_,fun d member => by simp at member⟩
      · intro a x there
        obtain ⟨x0,before,isSame⟩ := agree1.ordinal_of.backward there
        rw [← isSame]
        exact pre.roomy a x0 before
      · exact (pre.rises a above other).grow agree1.unnumbered_of.dependants_of (by rw [numbers]) fun b => by rw [numbers]
    unfold cfg_put_in_order_dep
    simp only [moved,found1,bind_eq_bind,bind_some]
    -- The dependants still to come keep the loop going, the ones done are right.
    have loop : ∀ (todo done : List CfgDependency) {db2 l2}, done ++ todo = o1.dependants →
        PutLoop r n db obj done db2 l2 → ∃ db' l', todo.foldlM (fun db dep => do
          let o ← db.objs.get obj
          let d ← db.objs.get dep.depends
          if d.ordinal_number ≤ o.ordinal_number then
            cfg_put_in_order_dep fuel (setOrdinal db dep.depends (o.ordinal_number+1)) dep.depends
          else some db) db2 = some db' ∧ PutLoop r n db obj o1.dependants db' l' := by
      intro todo
      induction todo with
      | nil => grind
      | cons dep todo next =>
        intro done db2 l2 all loop
        have member : dep ∈ o.dependants := by
          rw [← sameList,← all]; simp
        obtain ⟨rank,live⟩ := pre.down obj o found dep member
        obtain ⟨db3,l3,step,loop3⟩ := loop.step pre.down pre.alive rank live fun {db l} => ih (by omega)
        obtain ⟨db',l',rest,post⟩ := next (done ++ [dep]) (by simpa using all) loop3
        refine ⟨db',l',?_,post⟩
        rw [foldlM_cons]
        simp only [bind_eq_bind] at step rest ⊢
        rw [step]
        exact rest
    obtain ⟨db',l',all,post⟩ := loop o1.dependants [] rfl start
    refine ⟨db',l',by simpa only [bind_eq_bind] using all,post.agree,post.listed,post.sorted,post.roomy,post.grow,
      post.low,fun a above => ?_⟩
    by_cases here : a = obj
    · subst here
      intro x there d member
      refine post.done d ?_
      obtain ⟨x0,before,isSame⟩ := post.agree.backward there
      rw [found] at before
      cases before
      rw [sameList,unnumbered_dependants isSame]
      exact member
    · exact post.rises a above here
end

section
variable {db db' : Db} {okids : Nat → List Nat} {l : List Nat} {master obj : Nat} {wide : Bool} {r : Nat → Nat} {n : Nat}

/-- Each record has its counterpart with the master. -/
theorem DepBook.up (book : DepBook db) {m a : Nat} (depends : Depends db m a) :
    ∃ x y d, db.objs.get a = some x ∧ db.objs.get m = some y ∧ d ∈ y.dependants ∧ d.depends = a := by
  obtain ⟨x,⟨_,w⟩,found,member,rfl⟩ := depends
  obtain ⟨y,there⟩ := book.masters found member
  have counted := book.mirror found there w
  refine ⟨x,y,⟨a,w⟩,found,there,List.count_pos_iff.mp ?_,rfl⟩
  rw [← counted]
  exact List.count_pos_iff.mpr member
theorem DepBook.down (book : DepBook db) {a : Nat} {x : CfgObject} {d : CfgDependency} (found : db.objs.get a = some x)
    (member : d ∈ x.dependants) : Depends db a d.depends := by
  obtain ⟨b,w⟩ := d
  obtain ⟨y,there⟩ := book.dependants found member
  refine ⟨y,⟨a,w⟩,there,List.count_pos_iff.mp ?_,rfl⟩
  rw [book.mirror there found w]
  exact List.count_pos_iff.mpr member
theorem Ordered.risesAt (ordered : Ordered db l) (book : DepBook db) (a : Nat) : RisesAt db a :=
  fun _ found _ member => ordered.rising (book.down found member)

/-- The way up from an object ends at the root. -/
theorem scan_fathers (tree : ObjTree db okids) (p : CfgObject → Bool) {a : Nat} {x : CfgObject}
    (found : db.objs.get a = some x) (enough : a < fuel) :
    ∃ t, scan db.objs (fun x => x.father) p fuel (some a) = some t ∧ ∀ u, t = some u → ∃ y, db.objs.get u = some y := by
  induction fuel generalizing a x with
  | zero => omega
  | succ fuel ih =>
    simp only [scan,found,bind_some]
    by_cases hit : p x = true
    · simp_all
    · rw [if_neg hit]
      rcases tree.father_of found with ⟨_,none'⟩ | ⟨f,y,up,there,son⟩
      · rw [none']
        refine ⟨none,?_,by simp⟩
        cases fuel <;> rfl
      · rw [up]
        have older := tree.forest.older son
        exact ih there (by omega)
theorem dependantOf_total (tree : ObjTree db okids) (masterLive : ∃ m, db.objs.get master = some m)
    (live : ∃ o, db.objs.get obj = some o) :
    ∃ t, dependantOf db master obj = some t ∧ ∀ dep, t = some dep → ∃ x, db.objs.get dep = some x := by
  obtain ⟨m,foundM⟩ := masterLive
  obtain ⟨o,found⟩ := live
  obtain ⟨u,up,unit⟩ := scan_fathers tree CfgObject.unit found (Heap.lt_size found)
  obtain ⟨v,upM,_⟩ := scan_fathers tree CfgObject.unit foundM (Heap.lt_size foundM)
  unfold dependantOf
  simp only [found,foundM,unitOf,up,upM,bind_eq_bind,bind_some]
  have own : ∀ dep, some obj = some dep → ∃ x, db.objs.get dep = some x := by
    rintro dep ⟨⟩
    exact ⟨o,found⟩
  by_cases part : o.unit_part = true ∧ o.father ≠ some master
  · grind
  · rw [if_neg part]
    exact ⟨some obj,rfl,own⟩
theorem insertDependant_total (oid : CStr) (new : CfgDependency)
    (live : ∀ d ∈ ds, ∃ x, db.objs.get d.depends = some x) : ∃ ds', insertDependant db oid new ds = some ds' := by
  induction ds with
  | nil => exact ⟨_,rfl⟩
  | cons d ds ih =>
    cases ds with
    | nil => exact ⟨_,rfl⟩
    | cons d' ds =>
      obtain ⟨x,found⟩ := live d (by simp)
      obtain ⟨rest,later⟩ := ih fun c member => live c (by simp [member])
      simp only [insertDependant,found,bind_eq_bind,bind_some]
      split
      · exact ⟨_,rfl⟩
      · rw [later]
        exact ⟨_,rfl⟩

variable {dep : Nat}

/-- The numbers once the dependency is recorded: only the one of the dependant may grow. -/
theorem recordMaster_ord {m o : CfgObject} (found : db.objs.get dep = some o)
    (fits : m.ordinal_number+1 < UINT_MOD) (b : Nat) : ordOf (recordMaster db dep master m wide) b =
      if b = dep then max o.ordinal_number (m.ordinal_number+1) else ordOf db b := by
  by_cases here : b = dep
  · subst here
    simp only [ordOf,recordMaster,setObj_get,if_true,found,map_some,getD_some]
    split
    · rw [mod_eq_of_lt fits]; omega
    · omega
  · simp [ordOf,recordMaster,here]

/-- `cfg_create_dep` returns if the ranks rise along all dependencies, the new one
    included; the order is kept. -/
theorem create_order (wide : Bool) (ordered : Ordered db l) (book : DepBook db) (tree : ObjTree db okids) (roomy : Roomy r n db)
    (enough : n ≤ db.objs.size) (rise : ∀ {m a}, Depends db m a → r m < r a)
    (masterLive : ∃ m, db.objs.get master = some m) (live : ∃ o, db.objs.get obj = some o)
    (new : ∀ dep, dependantOf db master obj = some (some dep) → r master < r dep) :
    ∃ db' l', cfg_create_dep db master obj wide = some db' ∧ Ordered db' l' ∧ Roomy r n db' := by
  obtain ⟨m,foundM⟩ := masterLive
  obtain ⟨t,target,targetLive⟩ := dependantOf_total tree ⟨m,foundM⟩ live
  cases t with
  | none => exact ⟨db,l,by simp [cfg_create_dep,target],ordered,roomy⟩
  | some dep =>
    obtain ⟨o,found⟩ := targetLive dep rfl
    have rank := new dep target
    have roomM := roomy master m foundM
    have room := roomy dep o found
    have numbers : ∀ b, ordOf (recordMaster db dep master m wide) b =
        if b = dep then max o.ordinal_number (m.ordinal_number+1) else ordOf db b :=
      recordMaster_ord found (by omega)
    have agree : Agree CfgObject.dependants db (recordMaster db dep master m wide) := Agree.setObj _ _ fun _ => rfl
    have grow : ∀ b, ordOf db b ≤ ordOf (recordMaster db dep master m wide) b := by
      intro b
      rw [numbers]
      split
      · rename_i here
        rw [here,ordOf_eq found]; omega
      · exact le_rfl
    have before : PutPre r n (recordMaster db dep master m wide) dep l := by
      refine ⟨ordered.toListed.agree (Agree.setObj _ _ fun _ => rfl) rfl,(agree.alive _).mpr ⟨o,found⟩,?_,?_,
        agree.rankedDown fun a x there d member => ⟨rise (book.down there member),book.dependants there member⟩,
        fun a _ other => (ordered.risesAt book a).grow agree (by rw [numbers,if_neg other]) grow⟩
      · refine ordered.sorted.imp fun {a b} le => ?_
        by_cases here : a = dep
        · exact .inl here
        · grind
      · intro a x' there
        obtain ⟨x,old⟩ := (agree.alive a).mp ⟨x',there⟩
        have number := numbers a
        rw [ordOf_eq there] at number
        by_cases here : a = dep
        · subst here
          rw [if_pos rfl] at number
          omega
        · rw [if_neg here,ordOf_eq old] at number
          rw [number]
          exact roomy a x old
    obtain ⟨moved,l',put,post⟩ := put_spec (by omega : n ≤ db.objs.size+r dep) before
    have agree1 := agree.trans post.agree.dependants_of
    obtain ⟨o',foundO⟩ := (agree1.alive dep).mpr ⟨o,found⟩
    obtain ⟨m',foundM',sameM⟩ := agree1.forward foundM
    obtain ⟨ds,inserted⟩ : ∃ ds, insertDependant moved o'.oid ⟨dep,wide⟩ m'.dependants = some ds :=
      insertDependant_total _ _ fun d member => (agree1.alive _).mpr (book.dependants foundM (sameM ▸ member))
    have created : cfg_create_dep db master obj wide = some (setDependants moved master ds) := by
      simp [cfg_create_dep,target,foundM,put,foundO,foundM',inserted]
    have same : ordOf (setDependants moved master ds) = ordOf moved :=
      Agree.ordOf (Agree.setObj _ _ fun _ => rfl)
    refine ⟨_,l',created,⟨post.listed.agree (Agree.setObj _ _ fun _ => rfl) rfl,by rw [same]; exact post.sorted,?_⟩,?_⟩
    · intro b a depends
      rw [same]
      rcases create_recorded created with ⟨none',_⟩ | ⟨dep',target',recorded⟩
      · rw [target] at none'
        cases none'
      have isDep : dep' = dep := some.inj (some.inj (target'.symm.trans target))
      subst isDep
      obtain ⟨x',d,there,member,rfl⟩ := depends
      obtain ⟨x,old,masters,_⟩ := recorded.back there
      have cases' : (d.depends = master ∧ a = dep') ∨ Depends db d.depends a := by
        rw [masters] at member
        split at member
        · rcases mem_cons.mp member with rfl | inside
          · exact .inl ⟨rfl,by assumption⟩
          · exact .inr ⟨x,d,old,inside,rfl⟩
        · exact .inr ⟨x,d,old,member,rfl⟩
      have notDep : ∀ {c}, r c < r dep' → c ≠ dep' := by
        rintro c less rfl
        omega
      rcases cases' with ⟨isMaster,isDep⟩ | depends
      · rw [isMaster,isDep,post.low master (le_of_lt rank),post.low dep' le_rfl,numbers,numbers,
          if_neg (notDep rank),if_pos rfl,ordOf_eq foundM]
        omega
      · obtain ⟨_,y,back,_,foundY,inside,isBack⟩ := book.up depends
        by_cases high : r dep' ≤ r d.depends
        · obtain ⟨y',thereY,sameY⟩ := agree1.forward foundY
          have := post.rises d.depends high y' thereY back (sameY ▸ inside)
          rwa [isBack] at this
        · have less : r d.depends < r dep' := not_le.mp high
          rw [post.low d.depends (le_of_lt less),numbers,if_neg (notDep less)]
          have := ordered.rising depends
          have := grow a
          have := post.grow a
          omega
    · intro a x' there
      obtain ⟨x,old,isSame⟩ := (Agree.setObj (g := CfgObject.ordinal_number) moved master
        (f := fun x => {x with dependants := ds}) fun _ => rfl).backward there
      rw [← isSame]
      exact post.roomy a x old

theorem create_mono (created : cfg_create_dep db master obj wide = some db') {m a : Nat} (depends : Depends db m a) :
    Depends db' m a := by
  rcases create_recorded created with ⟨_,rfl⟩ | ⟨dep,_,recorded⟩
  · exact depends
  · obtain ⟨x,d,found,member,rfl⟩ := depends
    obtain ⟨x',there⟩ := recorded.live found
    obtain ⟨y,found',masters,_⟩ := recorded.back there
    rw [found] at found'
    cases found'
    refine ⟨x',d,there,?_,rfl⟩
    rw [masters]
    split
    · exact mem_cons_of_mem _ member
    · exact member
theorem create_depends (created : cfg_create_dep db master obj wide = some db')
    (target : dependantOf db master obj = some (some dep)) : Depends db' master dep := by
  rcases create_recorded created with ⟨none',_⟩ | ⟨dep',target',recorded⟩
  · rw [target] at none'
    cases none'
  · have isDep : dep' = dep := some.inj (some.inj (target'.symm.trans target))
    subst isDep
    obtain ⟨x,found⟩ := recorded.depLive
    obtain ⟨x',there⟩ := recorded.live found
    obtain ⟨_,_,masters,_⟩ := recorded.back there
    exact ⟨x',⟨master,wide⟩,there,by rw [masters,if_pos rfl]; simp,rfl⟩
/-- A call that ended with ranks that rise along all dependencies kept the order. -/
theorem created_order (ordered : Ordered db l) (book : DepBook db) (tree : ObjTree db okids) (roomy : Roomy r n db)
    (enough : n ≤ db.objs.size) (created : cfg_create_dep db master obj wide = some db')
    (rise : ∀ {m a}, Depends db' m a → r m < r a) (masterLive : ∃ m, db.objs.get master = some m)
    (live : ∃ o, db.objs.get obj = some o) : ∃ l', Ordered db' l' ∧ Roomy r n db' := by
  obtain ⟨db1,l',created',ordered',roomy'⟩ := create_order wide ordered book tree roomy enough
    (fun depends => rise (create_mono created depends)) masterLive live fun _ target => rise (create_depends created target)
  have same : db1 = db' := some.inj (created'.symm.trans created)
  exact ⟨l',same ▸ ordered',same ▸ roomy'⟩
end

section
variable {db db' : Db} {okids kids : Nat → List Nat} {l : List Nat} {r : Nat → Nat} {n : Nat}

theorem adopt_mono {master : Nat} {oid : CfgOid} {orphans kept : List CfgOrphan}
    (adopted : adopt master oid orphans db = some (db',kept)) {m a : Nat} (depends : Depends db m a) : Depends db' m a := by
  induction orphans generalizing db db' kept with
  | nil => grind [adopt]
  | cons orphan rest ih =>
    unfold adopt at adopted
    obtain ⟨_,_,adopted⟩ := of_bind adopted
    split at adopted
    · obtain ⟨next,created,adopted⟩ := of_bind adopted
      exact ih adopted (create_mono created depends)
    · obtain ⟨⟨next,kept'⟩,later,adopted⟩ := of_bind adopted
      simp only [some_inj,Prod.mk.injEq] at adopted
      exact adopted.1 ▸ ih later depends
theorem adopt_order {master : Nat} {oid : CfgOid} {orphans kept : List CfgOrphan} (ordered : Ordered db l)
    (book : DepBook db) (tree : ObjTree db okids) (roomy : Roomy r n db) (enough : n ≤ db.objs.size)
    (adopted : adopt master oid orphans db = some (db',kept)) (rise : ∀ {m a}, Depends db' m a → r m < r a)
    (masterLive : ∃ m, db.objs.get master = some m) (live : ∀ orph ∈ orphans, ∃ o, db.objs.get orph.object = some o) :
    ∃ l', Ordered db' l' ∧ Roomy r n db' := by
  induction orphans generalizing db db' kept l with
  | nil => grind [adopt]
  | cons orphan rest ih =>
    unfold adopt at adopted
    obtain ⟨m,_,adopted⟩ := of_bind adopted
    split at adopted
    · obtain ⟨next,created,adopted⟩ := of_bind adopted
      have agree := create_agree created
      obtain ⟨l1,ordered1,roomy1⟩ := created_order ordered book tree roomy enough created
        (fun depends => rise (adopt_mono adopted depends)) masterLive (live orphan (by simp))
      exact ih ordered1 (create_book book created) (tree.agree agree) roomy1 (by rw [agree.size]; exact enough) adopted
        rise ((agree.alive _).mpr masterLive) fun orph member => (agree.alive _).mpr (live orph (by simp [member]))
    · obtain ⟨⟨next,kept'⟩,later,adopted⟩ := of_bind adopted
      obtain ⟨rfl,_⟩ := of_pair adopted
      exact ih ordered book tree roomy enough later rise masterLive fun orph member => live orph (by simp [member])

theorem Listed.absent (listed : Listed db l) : db.objs.size ∉ l := by
  intro member
  obtain ⟨x,found⟩ := listed.live member
  simp [Heap.get_fresh] at found
variable {new : CfgObject}

/-- A new object without dependencies stands first. -/
theorem link_order {table : List (Option Nat)} {f : Nat} (ordered : Ordered db l)
    (young : f < db.objs.size) (number : new.ordinal_number = 0) (masters : new.depends_on = [])
    (next : new.dep_next = db.topological_order) (prev : new.dep_prev = none) :
    Ordered (linkObject db table new f) (db.objs.size :: l) := by
  have absent := ordered.absent
  have isNext : ∀ b, nextOf (linkObject db table new f) b = if b = db.objs.size then some l.head? else nextOf db b := by
    intro b
    change nextOf (linkPrev _ _ _) b = _
    rw [nextOf_linkPrev]
    simp only [nextOf,linkOf,Db.setObj]
    rw [Heap.fresh_eq_size,Heap.get_alloc_modify young]
    by_cases isNew : b = db.objs.size
    · simp [isNew,next,ordered.head]
    · by_cases atFather : b = f
      · rw [if_neg isNew,if_pos atFather,if_neg isNew,atFather]
        cases db.objs.get f <;> rfl
      · simp [isNew,atFather]
  have isPrev : ∀ b, prevOf (linkObject db table new f) b = if b = db.objs.size then some none else
      if l.head? = some b then (prevOf db b).map fun _ => some db.objs.size else prevOf db b := by
    intro b
    change prevOf (linkPrev _ new.dep_next _) b = _
    rw [prevOf_linkPrev,show new.dep_next = l.head? from next.trans ordered.head]
    have base : prevOf (Db.setObj {db with objs := db.objs.alloc new,cfg_all_obj := table.set new.handle (some db.objs.fresh)}
        f fun x => {x with son := some db.objs.fresh}) b = if b = db.objs.size then some none else prevOf db b := by
      simp only [prevOf,linkOf,Db.setObj]
      rw [Heap.fresh_eq_size,Heap.get_alloc_modify young]
      by_cases isNew : b = db.objs.size
      · simp [isNew,prev]
      · by_cases atFather : b = f
        · rw [if_neg isNew,if_pos atFather,if_neg isNew,atFather]
          cases db.objs.get f <;> rfl
        · simp [isNew,atFather]
    rw [base]
    by_cases isNew : b = db.objs.size
    · have notFirst : l.head? ≠ some b := fun first => absent (isNew ▸ mem_of_mem_head? first)
      rw [if_neg notFirst,if_pos isNew,if_pos isNew]
    · rw [if_neg isNew,if_neg isNew]
      rfl
  have numbers : ∀ b, ordOf (linkObject db table new f) b = ordOf db b := by
    intro b
    cases found : (linkObject db table new f).objs.get b with
    | none =>
      cases old : db.objs.get b with
      | none => simp [ordOf,found,old]
      | some x =>
        have stays : ∃ x', (linkObject db table new f).objs.get b = some x' := linkObject_live young old
        rw [found] at stays
        simp at stays
    | some x' =>
      rcases linkObject_back young found with ⟨isNew,same⟩ | ⟨x,old,_,_,same⟩
      · grind [Heap.get_fresh,unordered,ordOf]
      · simp [ordOf,found,old,same]
  have size : (linkObject db table new f).objs.size = db.objs.size+1 := by
    rw [(linkObject_order db table new f).size]; simp
  refine ⟨⟨by rw [size]; exact Nat.le_succ_of_le ordered.size,rfl,?_,fun a => ?_,fun {a x'} small found => ?_⟩,?_,
    fun {m a} depends => ?_⟩
  · have linked : Linked (nextOf (linkObject db table new f)) (prevOf (linkObject db table new f))
        ([] ++ db.objs.size :: l) := by
      refine inserted_links ordered.linked absent (fun a member => ordered.live member) (fun b => ?_) (fun b => ?_)
      · rw [isNext]; rfl
      · rw [isPrev]; rfl
    exact linked
  · constructor
    · intro member
      rcases mem_cons.mp member with rfl | inside
      · refine ⟨ordered.size,?_⟩
        have there : ∃ y, ((db.objs.alloc new).modify f fun x => {x with son := some db.objs.size}).get db.objs.size =
            some y := ⟨new,by rw [Heap.get_alloc_modify young,if_pos rfl]⟩
        exact ((linkObject_order db table new f).alive _).mpr there
      · obtain ⟨large,x,found⟩ := (ordered.members a).mp inside
        exact ⟨large,linkObject_live young found⟩
    · rintro ⟨large,x',found⟩
      rcases linkObject_back young found with ⟨rfl,_⟩ | ⟨x,old,_⟩
      · exact mem_cons_self
      · exact mem_cons_of_mem _ ((ordered.members a).mpr ⟨large,x,old⟩)
  · have notNew : a ≠ db.objs.size := fun same => by have := ordered.size; omega
    rcases linkObject_back young found with ⟨isNew,_⟩ | ⟨x,old,_⟩
    · exact absurd isNew notNew
    · obtain ⟨noNext,noPrev⟩ := ordered.reserved small old
      have notFirst : l.head? ≠ some a := fun first =>
        absurd ((ordered.members a).mp (mem_of_mem_head? first)).1 (not_le.mpr small)
      have same := isNext a
      have same' := isPrev a
      rw [nextOf_eq found,if_neg notNew,nextOf_eq old,noNext] at same
      rw [prevOf_eq found,if_neg notNew,if_neg notFirst,prevOf_eq old,noPrev] at same'
      exact ⟨some.inj same,some.inj same'⟩
  · refine pairwise_cons.mpr ⟨fun b _ => ?_,ordered.sorted.imp fun {a b} le => by rw [numbers,numbers]; exact le⟩
    have zero : ordOf db db.objs.size = 0 := by simp [ordOf,Heap.get_fresh]
    rw [numbers,zero]
    exact Nat.zero_le _
  · obtain ⟨x',d,found,member,rfl⟩ := depends
    rcases linkObject_back young found with ⟨_,same⟩ | ⟨x,old,lists,_⟩
    · rw [show x'.depends_on = [] from (unnumbered_depends_on (congrArg unnumbered same)).trans masters] at member
      simp at member
    · rw [numbers,numbers]
      exact ordered.rising ⟨x,d,old,lists ▸ member,rfl⟩

/-- The state in which a registration adopts orphans: the new object is linked. -/
theorem RegisterPlace.order {msg : CfgRegisterMsg} {oid : CfgOid} {f i : Nat} {fo : CfgObject} {id : CfgSubid}
    {table : List (Option Nat)} (place : RegisterPlace db msg oid f fo id i table) (ordered : Ordered db l)
    (roomy : Roomy r n db) (room : r db.objs.size < n ∧ n ≤ UINT_MOD) :
    Ordered (linkObject db table (newObject db msg f fo id.subid i) f) (db.objs.size :: l) ∧
      Roomy r n (linkObject db table (newObject db msg f fo id.subid i) f) := by
  have young := Heap.lt_size place.found
  refine ⟨link_order ordered young rfl rfl rfl rfl,fun a x' found => ?_⟩
  rcases linkObject_back young found with ⟨isNew,same⟩ | ⟨x,old,_,_,same⟩
  · grind [unordered,newObject]
  · rw [same]
    exact roomy a x old
theorem RegisterPlace.orphans {msg : CfgRegisterMsg} {oid : CfgOid} {f i : Nat} {fo : CfgObject} {id : CfgSubid}
    {table : List (Option Nat)} (place : RegisterPlace db msg oid f fo id i table) (book : DepBook db) :
    ∀ orph ∈ db.orphaned_objects,
      ∃ o, (linkObject db table (newObject db msg f fo id.subid i) f).objs.get orph.object = some o := by
  intro orph member
  obtain ⟨y,old⟩ := book.orphans member
  exact linkObject_live (Heap.lt_size place.found) old
theorem linkObject_new {table : List (Option Nat)} {f : Nat} (young : f < db.objs.size) :
    ∃ x, (linkObject db table new f).objs.get db.objs.size = some x := by
  have there : ∃ y, ((db.objs.alloc new).modify f fun x => {x with son := some db.objs.size}).get db.objs.size = some y :=
    ⟨new,by rw [Heap.get_alloc_modify young,if_pos rfl]⟩
  exact ((linkObject_order db table new f).alive _).mpr there
theorem linkObject_size {table : List (Option Nat)} {f : Nat} : (linkObject db table new f).objs.size = db.objs.size+1 := by
  rw [(linkObject_order db table new f).size]
  simp

theorem Listed.of_same (listed : Listed db l) (objs : db'.objs = db.objs)
    (head : db'.topological_order = db.topological_order) : Listed db' l where
  size := by rw [objs]; exact listed.size
  head := head.trans listed.head
  linked := by unfold nextOf prevOf; rw [objs]; exact listed.linked
  members := by rw [objs]; exact listed.members
  reserved := by rw [objs]; exact listed.reserved
theorem Ordered.of_same (ordered : Ordered db l) (objs : db'.objs = db.objs)
    (head : db'.topological_order = db.topological_order) : Ordered db' l where
  toListed := ordered.toListed.of_same objs head
  sorted := by unfold ordOf; rw [objs]; exact ordered.sorted
  rising := by unfold ordOf Depends; rw [objs]; exact ordered.rising

/-- The new object has adopted some of the orphans. -/
theorem RegisterPlace.adopted {msg : CfgRegisterMsg} {oid : CfgOid} {f i : Nat} {fo : CfgObject} {id : CfgSubid}
    {table : List (Option Nat)} (place : RegisterPlace db msg oid f fo id i table) (ordered : Ordered db l)
    (book : DepBook db) (objTree : ObjTree db okids) (tree : InstTree db kids) (roomy : Roomy r n db)
    (room : r db.objs.size < n ∧ n ≤ UINT_MOD) (enough : n ≤ db.objs.size+1) {orphans kept : List CfgOrphan}
    (known : ∀ orph ∈ orphans, orph ∈ db.orphaned_objects)
    (adopted : adopt db.objs.size oid orphans (linkObject db table (newObject db msg f fo id.subid i) f) = some (db',kept))
    (rise : ∀ {m a}, Depends db' m a → r m < r a) :
    ∃ l' okids', Ordered db' l' ∧ Roomy r n db' ∧ DepBook db' ∧ ObjTree db' okids' ∧ n ≤ db'.objs.size := by
  have young := Heap.lt_size place.found
  obtain ⟨objTree0,_⟩ := place.link objTree tree
  obtain ⟨ordered0,roomy0⟩ := place.order ordered roomy room
  have book0 : DepBook (linkObject db table (newObject db msg f fo id.subid i) f) := link_book book young rfl rfl
  obtain ⟨agree,_⟩ := adopt_agree adopted
  obtain ⟨l1,ordered1,roomy1⟩ := adopt_order ordered0 book0 objTree0 roomy0 (by rw [linkObject_size]; exact enough)
    adopted rise (linkObject_new young) fun orph member => place.orphans book orph (known orph member)
  exact ⟨l1,_,ordered1,roomy1,adopt_book book0 adopted,objTree0.agree agree,by rw [agree.size,linkObject_size]; exact enough⟩
end

section
variable {db db' : Db} {okids kids : Nat → List Nat} {l pre post : List Nat} {obj f : Nat}

/-- What the topological order reads of an object, with its number. -/
def orderData (o : CfgObject) : (Option Nat × Option Nat) × Nat := (orderLinks o,o.ordinal_number)
/-- Nothing of the topological order has changed. -/
def SameOrder (db db' : Db) : Prop := Agree orderData db db' ∧ db'.topological_order = db.topological_order

theorem SameOrder.refl (db : Db) : SameOrder db db := ⟨Agree.refl ..,rfl⟩
theorem SameOrder.trans {db'' : Db} (first : SameOrder db db') (second : SameOrder db' db'') : SameOrder db db'' :=
  ⟨first.1.trans second.1,second.2.trans first.2⟩
theorem forget_masters_order
    (forgot : ds.foldlM (fun db d => forget_master db d.depends obj) db = some db') : SameOrder db db' := by
  refine foldlM_keeps SameOrder.refl SameOrder.trans (fun s t d _ step => ?_) forgot
  obtain ⟨_,_,-,-,rfl⟩ := forget_cases step
  exact ⟨Agree.setObj _ _ fun _ => rfl,rfl⟩
theorem forget_dependants_order
    (forgot : ds.foldlM (fun db d => forget_dependant db d.depends obj) db = some db') : SameOrder db db' := by
  refine foldlM_keeps SameOrder.refl SameOrder.trans (fun s t d _ step => ?_) forgot
  obtain ⟨_,_,-,-,rfl⟩ := forget_cases step
  exact ⟨Agree.setObj _ _ fun _ => rfl,rfl⟩
theorem unlinkTree_order {o : CfgObject} (unlinked : unlinkTree db f obj o = some db') : SameOrder db db' := by
  unfold unlinkTree at unlinked
  obtain ⟨_,_,unlinked⟩ := of_bind unlinked
  split at unlinked
  · cases unlinked
    exact ⟨Agree.setObj _ _ fun _ => rfl,rfl⟩
  · obtain ⟨_,_,unlinked⟩ := of_bind unlinked
    obtain ⟨_,_,unlinked⟩ := of_bind unlinked
    cases unlinked
    exact ⟨Agree.setObj _ _ fun _ => rfl,rfl⟩

/-- An object leaves the list, and its cell is freed. -/
theorem unlinked_listed {o : CfgObject} {db1 db2 : Db} (listed : Listed db l) (split : l = pre ++ obj :: post)
    (found : db.objs.get obj = some o) (same : SameOrder (unlinkOrder db o) db1) (objs : db2.objs = db1.objs.free obj)
    (head : db2.topological_order = db1.topological_order) : Listed db2 (pre ++ post) := by
  obtain ⟨isNext,isPrev⟩ := listed.linked.links pre split
  rw [nextOf_eq found,some_inj] at isNext
  rw [prevOf_eq found,some_inj] at isPrev
  have absent := without_obj (split ▸ listed.linked.nodup)
  have links : Agree orderLinks (unlinkOrder db o) db1 := same.1.comp Prod.fst fun _ => rfl
  have freed : ∀ b, b ≠ obj → db2.objs.get b = db1.objs.get b := fun b other => by
    rw [objs,Heap.get_free,if_neg other]
  have next : ∀ b, b ≠ obj →
      nextOf db2 b = if pre.getLast? = some b then (nextOf db b).map fun _ => post.head? else nextOf db b := by
    intro b other
    have step : nextOf db2 b = nextOf (unlinkOrder db o) b := by
      rw [← links.nextOf]
      simp only [nextOf,linkOf,freed b other]
    rw [step,unlinkOrder,nextOf_linkPrev,nextOf_linkNext,isNext,isPrev]
  have prev : ∀ b, b ≠ obj →
      prevOf db2 b = if post.head? = some b then (prevOf db b).map fun _ => pre.getLast? else prevOf db b := by
    intro b other
    have step : prevOf db2 b = prevOf (unlinkOrder db o) b := by
      rw [← links.prevOf]
      simp only [prevOf,linkOf,freed b other]
    rw [step,unlinkOrder,prevOf_linkPrev,prevOf_linkNext,isNext,isPrev]
  have size : db2.objs.size = db.objs.size := by
    rw [objs,Heap.size_free,same.1.size,(unlinkOrder_agree db o).size]
  have alive : ∀ {b x}, db2.objs.get b = some x → b ≠ obj ∧ ∃ y, db.objs.get b = some y := by
    intro b x there
    have other : b ≠ obj := by
      rintro rfl
      rw [objs,Heap.get_free,if_pos rfl] at there
      cases there
    rw [freed b other] at there
    exact ⟨other,((unlinkOrder_agree db o).alive b).mp ((same.1.alive b).mp ⟨x,there⟩)⟩
  refine ⟨by rw [size]; exact listed.size,?_,erased_links listed split next prev,fun a => ?_,fun {a x'} small there => ?_⟩
  · rw [head,same.2,unlinkOrder,linkPrev_head,linkNext_head,isPrev,isNext,listed.head,split]
    cases pre with
    | nil => simp
    | cons b pre => simp
  · constructor
    · intro member
      have other : a ≠ obj := by rintro rfl; exact absent member
      have inside : a ∈ l := by grind
      obtain ⟨large,live⟩ := (listed.members a).mp inside
      refine ⟨large,?_⟩
      rw [freed a other]
      exact (same.1.alive a).mpr (((unlinkOrder_agree db o).alive a).mpr live)
    · rintro ⟨large,x,there⟩
      obtain ⟨other,live⟩ := alive there
      have inside := (listed.members a).mpr ⟨large,live⟩
      rw [split] at inside
      simp only [mem_append,mem_cons] at inside ⊢
      tauto
  · obtain ⟨other,x,before⟩ := alive there
    obtain ⟨noNext,noPrev⟩ := listed.reserved small before
    have notIn : a ∉ l := fun member => absurd ((listed.members a).mp member).1 (not_le.mpr small)
    have notLast : pre.getLast? ≠ some a := fun is => notIn (by simp [split,mem_of_getLast? is])
    have notFirst : post.head? ≠ some a := fun is => notIn (by simp [split,mem_of_mem_head? is])
    have sameNext := next a other
    have samePrev := prev a other
    rw [nextOf_eq there,if_neg notLast,nextOf_eq before,noNext] at sameNext
    rw [prevOf_eq there,if_neg notFirst,prevOf_eq before,noPrev] at samePrev
    exact ⟨some.inj sameNext,some.inj samePrev⟩

theorem SameOrder.ordOf (same : SameOrder db db') : ordOf db' = ordOf db :=
  Agree.ordOf (same.1.comp Prod.snd fun _ => rfl)
theorem SameOrder.listed (same : SameOrder db db') (listed : Listed db l) : Listed db' l :=
  listed.agree (same.1.comp Prod.fst fun _ => rfl) same.2
theorem forget_masters_fewer
    (forgot : ds.foldlM (fun db d => forget_master db d.depends obj) db = some db') {m a : Nat} (depends : Depends db' m a) :
    Depends db m a := by
  obtain ⟨x',d,found,member,rfl⟩ := depends
  obtain ⟨x,before,_,sub,_⟩ := (forget_masters_spec forgot).back found
  exact ⟨x,d,before,sub.subset member,rfl⟩
theorem forget_dependants_fewer
    (forgot : ds.foldlM (fun db d => forget_dependant db d.depends obj) db = some db') {m a : Nat}
    (depends : Depends db' m a) : Depends db m a := by
  obtain ⟨x',d,found,member,rfl⟩ := depends
  obtain ⟨x,before,same,_⟩ := (forget_dependants_spec forgot).back found
  exact ⟨x,d,before,same ▸ member,rfl⟩
/-- No dependency is added and the numbers of the listed objects stay. -/
theorem Ordered.fewer {l' : List Nat} (ordered : Ordered db l) (listed : Listed db' l') (sub : l'.Sublist l)
    (numbers : ∀ a, (∃ x, db'.objs.get a = some x) → ordOf db' a = ordOf db a)
    (less : ∀ {m a}, Depends db' m a → Depends db m a) : Ordered db' l' where
  toListed := listed
  sorted := by
    refine (ordered.sorted.sublist sub).imp_of_mem fun {a b} inA inB le => ?_
    rw [numbers a (listed.live inA),numbers b (listed.live inB)]
    exact le
  rising {m a} depends := by
    have before := ordered.rising (less depends)
    obtain ⟨x,d,found,_⟩ := depends
    rw [numbers a ⟨x,found⟩]
    -- A master that is gone has no number, which counts as zero.
    by_cases live : ∃ y, db'.objs.get m = some y
    · rw [numbers m live]
      exact before
    · have gone : db'.objs.get m = none := by
        cases there : db'.objs.get m with
        | none => rfl
        | some y => exact absurd ⟨y,there⟩ live
      rw [show Configurator.ordOf db' m = 0 by simp [Configurator.ordOf,gone]]
      omega

theorem unregister_order {id : CStr} {rc : Rc} (ordered : Ordered db l) (objTree : ObjTree db okids)
    (tree : InstTree db kids) (gone : cfg_db_unregister_obj_by_id_str db id = some (db',rc)) : ∃ l', Ordered db' l' := by
  cases cfg_db_unregister_cases gone with
  | refused => exact ⟨l,ordered⟩
  | pattern _ forgot =>
    have same := forget_masters_order forgot
    exact ⟨l,ordered.fewer (same.listed ordered.toListed) (List.Sublist.refl _) (fun _ _ => by rw [same.ordOf])
      (forget_masters_fewer forgot)⟩
  | @gone obj f o o2 o3 db1 db2 db3 db4 oid handles place forgot convert matched deleted found2 forgot2 found3 unlinked own =>
    obtain ⟨dead,kids2,pruned,_⟩ := no_instance_left objTree tree place forgot convert matched deleted
    have same1 := forget_masters_order forgot
    have same3 := forget_dependants_order forgot2
    have same4 := unlinkTree_order unlinked
    have listed2 : Listed db2 l := (same1.listed ordered.toListed).of_same pruned.objs pruned.topological_order
    have listed3 := same3.listed listed2
    obtain ⟨pre,post,split⟩ := append_of_mem ((listed3.members obj).mpr ⟨own,o3,found3⟩)
    have listed : Listed {db4 with cfg_all_obj := db4.cfg_all_obj.set o3.handle none,objs := db4.objs.free obj}
        (pre ++ post) := unlinked_listed listed3 split found3 same4 rfl rfl
    refine ⟨pre ++ post,ordered.fewer listed (by rw [split]; simp) (fun a live => ?_) fun {m a} depends => ?_⟩
    · have numbers2 : ordOf db2 = ordOf db1 := by unfold ordOf; rw [pruned.objs]
      have chain : ordOf db4 = ordOf db := by
        rw [same4.ordOf,((unlinkOrder_agree db3 o3).ordinal_of).ordOf,same3.ordOf,numbers2,same1.ordOf]
      rw [← chain]
      obtain ⟨x,there⟩ := live
      have other : a ≠ obj := by
        rintro rfl
        simp [Heap.get_free] at there
      simp only [ordOf,Heap.get_free,if_neg other]
    · obtain ⟨x',d,there,member,rfl⟩ := depends
      obtain ⟨_,x,found,lists,_⟩ := (unlinked_lists unlinked).1 there
      have depends2 := forget_dependants_fewer forgot2 ⟨x,d,found,lists ▸ member,rfl⟩
      refine forget_masters_fewer forgot ?_
      unfold Depends at depends2 ⊢
      rwa [pruned.objs] at depends2
end

section
variable [Libc] {db db' : Db} {okids kids : Nat → List Nat} {l : List Nat} {rc : Rc}

/-- No object depends on itself, directly or not. -/
def Acyclic (db : Db) : Prop := ∀ a, ¬ Relation.TransGen (Depends db) a a
/-- The dependencies and the one that the call of `cfg_create_dep` adds. -/
def DependsWith (db : Db) (master obj : Nat) (m a : Nat) : Prop :=
  Depends db m a ∨ (m = master ∧ dependantOf db master obj = some (some a))
/-- The ordinal numbers may grow by one for each object and one more. -/
def Room (db : Db) : Prop := ∀ a x, db.objs.get a = some x → x.ordinal_number+db.objs.live < UINT_MOD

/-- The calls of `cfg_create_dep` that an operation makes, with the database they are made in. -/
inductive CallsCreate (db : Db) : DbOp → Db → Nat → Nat → Bool → Prop
  | adopt {msg : CfgRegisterMsg} {oid m : CfgOid} {f i : Nat} {fo : CfgObject} {id : CfgSubid} {table : List (Option Nat)}
      {pre rest kept : List CfgOrphan} {orphan : CfgOrphan} {db1 : Db} (place : RegisterPlace db msg oid f fo id i table)
      (split : db.orphaned_objects = pre ++ orphan :: rest)
      (before : adopt db.objs.size oid pre (linkObject db table (newObject db msg f fo id.subid i) f) = some (db1,kept))
      (isMaster : orphan.master = some m) (same : cfg_oid_cmp oid m = true) :
      CallsCreate db (.register msg) db1 db.objs.size orphan.object orphan.object_wide
  | parent {msg : CfgRegisterMsg} {oid : CfgOid} {f i : Nat} {fo : CfgObject} {id : CfgSubid} {table : List (Option Nat)}
      {db1 : Db} (place : RegisterPlace db msg oid f fo id i table)
      (adopted : cfg_maybe_adopt_objects (linkObject db table (newObject db msg f fo id.subid i) f) db.objs.size oid =
        some db1) (dep : parentDep msg f = true) : CallsCreate db (.register msg) db1 f db.objs.size false
  | dependency {msg : CfgAddDependencyMsg} {obj master handle : Nat} {db1 : Db} (isObj : CFG_IS_INST msg.handle = false)
      (object : CFG_GET_OBJ db msg.handle = some obj) (found : cfg_db_find db msg.oid = some (db1,none,handle))
      (there : CFG_GET_OBJ db1 handle = some master) :
      CallsCreate db (.add_dependency msg) db1 master obj msg.object_wide

/-- A step that unregisters nothing another object or an orphan still needs, that
    has room for the ordinal numbers, and that leaves no cycle. -/
def orderSafe (db : Db) (op : DbOp) : Prop :=
  depSafe db op ∧ Room db ∧ ∀ db' rc, dbStep db op = some (db',rc) → Acyclic db'

omit [Libc] in
theorem acyclic_of_rank {r : Nat → Nat} (rise : ∀ {m a}, Depends db m a → r m < r a) : Acyclic db := by
  have path : ∀ {m a}, Relation.TransGen (Depends db) m a → r m < r a := by
    intro m a path
    induction path with
    | single edge => exact rise edge
    | tail _ edge ih => exact lt_trans ih (rise edge)
  exact fun a cycle => lt_irrefl _ (path cycle)

omit [Libc] in
theorem master_live (book : DepBook db) {m a : Nat} (depends : Depends db m a) : ∃ x, db.objs.get m = some x := by
  obtain ⟨x,d,found,member,rfl⟩ := depends
  exact book.masters found member
omit [Libc] in
/-- The ranks of a graph whose objects are at the addresses `s` are roomy. -/
theorem roomy_of {r : Nat → Nat} {s : Finset Nat} (below : ∀ a ∈ s, r a < s.card)
    (inside : ∀ a x, db.objs.get a = some x → a ∈ s) (room : Room db) (few : s.card ≤ db.objs.live+1) :
    Roomy r s.card db := by
  intro a x found
  have := room a x found
  exact ⟨below a (inside a x found),by omega⟩
omit [Libc] in
/-- The addresses in use after a registration. -/
theorem registered_live {msg : CfgRegisterMsg} {oid : CfgOid} {f i : Nat} {fo : CfgObject} {id : CfgSubid}
    {table : List (Option Nat)} {db1 : Db} (place : RegisterPlace db msg oid f fo id i table)
    (alive : ∀ a, (∃ x, db1.objs.get a = some x) ↔
      ∃ x, (linkObject db table (newObject db msg f fo id.subid i) f).objs.get a = some x) :
    db1.objs.live = db.objs.live+1 ∧ (∀ a x, db.objs.get a = some x → ∃ y, db1.objs.get a = some y) ∧
      ∃ y, db1.objs.get db.objs.size = some y := by
  have young := Heap.lt_size place.found
  refine ⟨?_,fun a x found => (alive a).mpr (linkObject_live young found),(alive _).mpr (linkObject_new young)⟩
  rw [Heap.live_congr alive,Heap.live_congr (linkObject_order ..).alive]
  simp only [Heap.live_modify]
  simp [Heap.live,Heap.alloc]

omit [Libc] in
theorem RegisterPlace.room {msg : CfgRegisterMsg} {oid : CfgOid} {f i : Nat} {fo : CfgObject} {id : CfgSubid}
    {table : List (Option Nat)} {db1 : Db} {r : Nat → Nat} (place : RegisterPlace db msg oid f fo id i table)
    (alive : ∀ a, (∃ x, db1.objs.get a = some x) ↔
      ∃ x, (linkObject db table (newObject db msg f fo id.subid i) f).objs.get a = some x)
    (below : ∀ a ∈ db1.objs.addresses, r a < db1.objs.addresses.card) (objTree : ObjTree db okids) (room : Room db) :
    Roomy r db1.objs.addresses.card db ∧
      (r db.objs.size < db1.objs.addresses.card ∧ db1.objs.addresses.card ≤ UINT_MOD) ∧
      db1.objs.addresses.card ≤ db.objs.size+1 := by
  obtain ⟨count,old,new⟩ := registered_live place alive
  have card := Heap.card_addresses db1.objs
  have few := Heap.live_le_size db.objs
  obtain ⟨x0,root,_⟩ := objTree.root
  have top := room _ _ root
  exact ⟨roomy_of below (fun a x found => Heap.mem_addresses.mpr (old a x found)) room (by omega),
    ⟨below _ (Heap.mem_addresses.mpr new),by omega⟩,by omega⟩

omit [Libc] in
theorem cfg_process_msg_register_order {msg : CfgRegisterMsg} {handle : Nat} (ordered : Ordered db l) (book : DepBook db)
    (objTree : ObjTree db okids) (tree : InstTree db kids) (room : Room db)
    (registered : cfg_process_msg_register db msg = some (db',rc,handle)) (acyclic : Acyclic db') :
    ∃ l', Ordered db' l' := by
  have book' := register_book book registered
  cases cfg_process_msg_register_cases registered with
  | refused => exact ⟨l,ordered⟩
  | @linked oid f _ fo id table db2 _ place adopted parent =>
    obtain ⟨r,rise,below⟩ := exists_rank (s := db'.objs.addresses)
      (fun depends => Heap.mem_addresses.mpr (master_live book' depends)) acyclic
    have book2 := maybe_adopt_book (link_book book (Heap.lt_size place.found) rfl rfl) adopted
    obtain ⟨db1,kept,adopted',rfl⟩ := maybe_adopt_cases adopted
    have agree1 := (adopt_agree adopted').1
    have known : ∀ orph ∈ (linkObject db table (newObject db msg f fo id.subid handle) f).orphaned_objects,
        orph ∈ db.orphaned_objects := fun orph member => (linkObject_order ..).orphaned_objects ▸ member
    have fatherLive : ∃ y, db1.objs.get f = some y :=
      (agree1.alive f).mpr (linkObject_live (Heap.lt_size place.found) place.found)
    have new : ∃ y, db1.objs.get db.objs.size = some y :=
      (agree1.alive _).mpr (linkObject_new (Heap.lt_size place.found))
    rcases parent with ⟨_,created⟩ | ⟨_,rfl⟩
    · have alive : ∀ a, (∃ x, db'.objs.get a = some x) ↔
          ∃ x, (linkObject db table (newObject db msg f fo id.subid handle) f).objs.get a = some x := fun a =>
        ((create_agree created).alive a).trans (agree1.alive a)
      obtain ⟨roomy,top,enough⟩ := place.room alive below objTree room
      obtain ⟨l1,okids1,ordered1,roomy1,_,objTree1,enough1⟩ := place.adopted ordered book objTree tree roomy top enough
        known adopted' fun depends => rise (create_mono created depends)
      have ordered2 : Ordered {db1 with orphaned_objects := kept} l1 := ordered1.of_same rfl rfl
      obtain ⟨l2,ordered',_⟩ := created_order ordered2 book2 (objTree1.of_same rfl rfl) roomy1 enough1 created rise
        fatherLive new
      exact ⟨l2,ordered'⟩
    · obtain ⟨roomy,top,enough⟩ := place.room (fun a => agree1.alive a) below objTree room
      obtain ⟨l1,_,ordered1,_⟩ := place.adopted ordered book objTree tree roomy top enough known adopted' rise
      exact ⟨l1,ordered1.of_same rfl rfl⟩

variable {op : DbOp}

/-- A safe step keeps the order. -/
theorem dbStep_order (trees : Trees db) (book : DepBook db) (ordered : ∃ l, Ordered db l)
    (safe : orderSafe db op) (step : dbStep db op = some (db',rc)) : ∃ l, Ordered db' l := by
  obtain ⟨l,ordered⟩ := ordered
  obtain ⟨depends,room,stays⟩ := safe
  have acyclic := stays db' rc step
  have book' := dbStep_book trees book depends step
  obtain ⟨okids,kids,objTree,tree⟩ := trees
  have extend : ∀ {d d'}, Ext d d' → (∃ l, Ordered d l) → ∃ l, Ordered d' l := fun ext ⟨l,old⟩ =>
    ⟨l,old.of_same ext.objs ext.topological_order⟩
  cases op with
  | register msg =>
    obtain ⟨db1,_,_,first,_,ext,_⟩ := registerRequest_extends objTree tree step
    refine extend ext (cfg_process_msg_register_order ordered book objTree tree room first ?_)
    unfold Acyclic Depends at acyclic ⊢
    rwa [ext.objs] at acyclic
  | unregister id => exact unregister_order ordered objTree tree step
  | add_dependency msg =>
    cases add_dependency_cases step with
    | refused => exact ⟨l,ordered⟩
    | orphan object missing =>
      obtain ⟨_,ext⟩ := cfg_db_find_trees objTree tree missing
      obtain ⟨l1,ordered1⟩ := extend ext ⟨l,ordered⟩
      exact ⟨l1,ordered1.of_same rfl rfl⟩
    | @created obj master handle db1 _ object found there created =>
      obtain ⟨_,ext⟩ := cfg_db_find_trees objTree tree found
      obtain ⟨l1,ordered1⟩ := extend ext ⟨l,ordered⟩
      have objTree1 := objTree.of_same ext.objs ext.cfg_all_obj
      have book1 : DepBook db1 := book.same ext.objs fun member => book.orphans (ext.orphaned_objects ▸ member)
      obtain ⟨r,rise,below⟩ := exists_rank (s := db'.objs.addresses)
        (fun depends => Heap.mem_addresses.mpr (master_live book' depends)) acyclic
      have alive := (create_agree created).alive
      have card := Heap.card_addresses db'.objs
      have same : db'.objs.live = db.objs.live := by rw [Heap.live_congr alive,ext.objs]
      have room1 : Room db1 := by unfold Room; rw [ext.objs]; exact room
      obtain ⟨o,foundO,_⟩ := objTree.slot object
      obtain ⟨m,foundM,_⟩ := objTree1.slot there
      obtain ⟨l2,ordered2,_⟩ := created_order ordered1 book1 objTree1
        (roomy_of below (fun a x found => Heap.mem_addresses.mpr ((alive a).mpr ⟨x,found⟩)) room1
          (by rw [ext.objs]; omega))
        (by have := Heap.live_le_size db.objs; rw [ext.objs]; omega) created rise ⟨m,foundM⟩
        ⟨o,by rw [ext.objs]; exact foundO⟩
      exact ⟨l2,ordered2⟩
  | add oid type val =>
    obtain ⟨⟨db1,rc1,handle⟩,added,same⟩ := of_map step
    cases same
    exact extend (cfg_db_add_spec objTree tree added).2.1 ⟨l,ordered⟩
  | find oid =>
    obtain ⟨⟨db1,rc1,handle⟩,found,same⟩ := of_map step
    cases same
    exact extend (cfg_db_find_trees objTree tree found).2 ⟨l,ordered⟩
  | set handle val =>
    obtain ⟨a,i,o,_,_,_,⟨_,⟨_,_,rfl,_⟩ | ⟨rfl,_⟩⟩ | ⟨_,rfl,_⟩⟩ := cfg_db_set_cases step
    · exact ⟨l,ordered⟩
    · exact ⟨l,ordered.of_same rfl rfl⟩
    · exact ⟨l,ordered⟩
  | del handle =>
    obtain ⟨db1,deleted,same⟩ := of_map step
    cases same
    obtain ⟨_,_,_,_,_,_,_,pruned,_⟩ := cfg_db_del_tree tree deleted
    exact ⟨l,ordered.of_same pruned.objs pruned.topological_order⟩
  | added handle | remove handle remove =>
    obtain ⟨db1,flagged,same⟩ := of_map step
    cases same
    obtain ⟨objs,_,head⟩ := flagInst_objs flagged
    exact ⟨l,ordered.of_same objs head⟩

omit [Libc] in
/-- The dependencies of the reserved objects: these are not in the list, but
    their numbers rise. -/
theorem reserved_rising : (do let db ← cfg_create_dep emptyDb 2 3 true
                              let db ← cfg_create_dep db 2 4 true
                              cfg_create_dep db 2 5 true).all (fun db : Db => decide (db.objs.size = 8) &&
      decide (db.topological_order = none) && (List.range 8).all fun a => (db.objs.get a).all fun x : CfgObject =>
        decide (x.dep_next = none ∧ x.dep_prev = none) &&
          x.depends_on.all fun d => decide (ordOf db d.depends < ordOf db a)) = true := by
  decide +kernel
omit [Libc] in
theorem cfg_db_init_order {tas : List CStr} (initialised : cfg_db_init tas = some db) : Ordered db [] := by
  obtain ⟨db1,_,deps,agents⟩ := cfg_db_init_cases initialised
  obtain ⟨objs,_,head⟩ := addAgents_objs agents
  have checked := reserved_rising
  rw [deps] at checked
  simp only [Option.all_some,and_eq_true,decide_eq_true_eq,all_eq_true,mem_range] at checked
  obtain ⟨⟨size,noHead⟩,each⟩ := checked
  have cell : ∀ {a x}, db1.objs.get a = some x → (x.dep_next = none ∧ x.dep_prev = none) ∧
      ∀ d ∈ x.depends_on, ordOf db1 d.depends < ordOf db1 a := by
    intro a x found
    have own := each a (by have := Heap.lt_size found; omega)
    simpa [found] using own
  have order : Ordered db1 [] := by
    refine ⟨⟨by rw [size]; decide,noHead,⟨.nil,.nil⟩,fun a => ⟨by simp,fun ⟨large,x,found⟩ => ?_⟩,fun _ found => (cell found).1⟩,
      .nil,fun {m a} depends => ?_⟩
    · have := Heap.lt_size found
      unfold CFG_OBJ_HANDLE_NUM_RSRVD at large
      omega
    · obtain ⟨x,d,found,member,rfl⟩ := depends
      exact (cell found).2 d member
  exact order.of_same objs head

/-- A call of `cfg_create_dep` returns unless the dependency makes a cycle. -/
theorem create_returns {db1 : Db} {master obj : Nat} {wide : Bool} (trees : Trees db) (book : DepBook db)
    (ordered : ∃ l, Ordered db l) (room : Room db) (call : CallsCreate db op db1 master obj wide)
    (acyclic : ∀ a, ¬ Relation.TransGen (DependsWith db1 master obj) a a) :
    ∃ db2, cfg_create_dep db1 master obj wide = some db2 := by
  obtain ⟨l,ordered⟩ := ordered
  obtain ⟨okids,kids,objTree,tree⟩ := trees
  -- The ranks of the graph with the new dependency.
  have ranks : DepBook db1 → (∃ x, db1.objs.get master = some x) → ∃ r : Nat → Nat,
      (∀ {m a}, DependsWith db1 master obj m a → r m < r a) ∧ ∀ a ∈ db1.objs.addresses, r a < db1.objs.addresses.card := by
    intro book1 live
    refine exists_rank (fun depends => Heap.mem_addresses.mpr ?_) acyclic
    rcases depends with old | ⟨rfl,_⟩
    · exact master_live book1 old
    · exact live
  cases call with
  | @adopt msg oid m f i fo id table pre rest kept orphan _ place split before isMaster same =>
    have young := Heap.lt_size place.found
    obtain ⟨agree,_⟩ := adopt_agree before
    have new := (agree.alive _).mpr (linkObject_new young)
    have book1 := adopt_book (link_book book young rfl rfl) before
    obtain ⟨r,rise,below⟩ := ranks book1 new
    obtain ⟨roomy,top,enough⟩ := place.room (fun a => agree.alive a) below objTree room
    obtain ⟨l1,okids1,ordered1,roomy1,_,objTree1,enough1⟩ := place.adopted ordered book objTree tree roomy top enough
      (fun orph member => by rw [split]; exact mem_append_left _ member) before fun depends => rise (.inl depends)
    have adoptable : ∃ o, (linkObject db table (newObject db msg f fo id.subid i) f).objs.get orphan.object = some o :=
      place.orphans book orphan (by rw [split]; simp)
    have live := (agree.alive _).mpr adoptable
    obtain ⟨db2,_,created,_⟩ := create_order orphan.object_wide ordered1 book1 objTree1 roomy1 enough1
      (fun depends => rise (.inl depends)) new live fun dep target => rise (.inr ⟨rfl,target⟩)
    exact ⟨db2,created⟩
  | @parent msg oid _ i fo id table _ place adopted dep =>
    have young := Heap.lt_size place.found
    have book1 := maybe_adopt_book (link_book book young rfl rfl) adopted
    obtain ⟨db0,kept,adopted',rfl⟩ := maybe_adopt_cases adopted
    obtain ⟨agree,_⟩ := adopt_agree adopted'
    have new := (agree.alive _).mpr (linkObject_new young)
    have fatherLive := (agree.alive _).mpr (linkObject_live young place.found)
    obtain ⟨r,rise,below⟩ := ranks book1 fatherLive
    obtain ⟨roomy,top,enough⟩ := place.room (fun a => agree.alive a) below objTree room
    have known : ∀ orph ∈ (linkObject db table (newObject db msg master fo id.subid i) master).orphaned_objects,
        orph ∈ db.orphaned_objects := fun orph member => (linkObject_order ..).orphaned_objects ▸ member
    obtain ⟨l1,okids1,ordered1,roomy1,_,objTree1,enough1⟩ := place.adopted ordered book objTree tree roomy top enough
      known adopted' fun depends => rise (.inl depends)
    have ordered2 : Ordered {db0 with orphaned_objects := kept} l1 := ordered1.of_same rfl rfl
    obtain ⟨db2,_,created,_⟩ := create_order false ordered2 book1 (objTree1.of_same rfl rfl) roomy1 enough1
      (fun depends => rise (.inl depends)) fatherLive new fun dep target => rise (.inr ⟨rfl,target⟩)
    exact ⟨db2,created⟩
  | @dependency msg _ _ handle _ isObj object found there =>
    obtain ⟨_,ext⟩ := cfg_db_find_trees objTree tree found
    have objTree1 := objTree.of_same ext.objs ext.cfg_all_obj
    have book1 : DepBook db1 := book.same ext.objs fun member => book.orphans (ext.orphaned_objects ▸ member)
    obtain ⟨o,foundO,_⟩ := objTree.slot object
    obtain ⟨m,foundM,_⟩ := objTree1.slot there
    obtain ⟨r,rise,below⟩ := ranks book1 ⟨m,foundM⟩
    have card := Heap.card_addresses db1.objs
    have few := Heap.live_le_size db1.objs
    have room1 : Room db1 := by unfold Room; rw [ext.objs]; exact room
    have ordered1 : Ordered db1 l := ordered.of_same ext.objs ext.topological_order
    obtain ⟨db2,_,created,_⟩ := create_order msg.object_wide ordered1 book1 objTree1
      (roomy_of below (fun a x found => Heap.mem_addresses.mpr ⟨x,found⟩) room1 (by omega)) (by omega)
      (fun depends => rise (.inl depends)) ⟨m,foundM⟩ ⟨o,by rw [ext.objs]; exact foundO⟩
      fun dep target => rise (.inr ⟨rfl,target⟩)
    exact ⟨db2,created⟩

omit [Libc] in
/-- The master of a listed object stands before it. -/
theorem Ordered.before (ordered : Ordered db l) {m a : Nat} (depends : Depends db m a) (inM : m ∈ l) (inA : a ∈ l) :
    ∃ pre mid post, l = pre ++ m :: (mid ++ a :: post) := by
  have less := ordered.rising depends
  obtain ⟨pre,post,split⟩ := append_of_mem inM
  have other : a ≠ m := by rintro rfl; omega
  have sorted := split ▸ ordered.sorted
  rw [split] at inA
  rcases mem_append.mp inA with first | rest
  · have := (pairwise_append.mp sorted).2.2 a first m mem_cons_self
    omega
  · obtain ⟨mid,post',later⟩ := append_of_mem ((mem_cons.mp rest).resolve_left other)
    exact ⟨pre,mid,post',by rw [split,later]⟩
theorem DbReach.order (reached : DbReach orderSafe db) : ∃ l, Ordered db l := by
  refine Reach.invariant_with (J := fun db => Trees db ∧ DepBook db) (fun _ before => ⟨DbReach.trees before,?_⟩)
    (fun _ ⟨_,_,initialised⟩ => ⟨[],cfg_db_init_order initialised⟩)
    (fun _ _ _ ⟨trees,book⟩ ordered safe ⟨_,step⟩ => dbStep_order trees book ordered safe step) reached
  exact DbReach.book (Reach.mono (fun _ _ safe => safe.1) before)

/-- In every run of safe steps the list is in topological order: it holds each
    object but the reserved ones once, and its masters before what depends on
    them; and `cfg_create_dep`, and so `cfg_put_in_order_dep`, always returns. -/
theorem topological_order_kept (reached : DbReach orderSafe db) :
    (∃ l, Ordered db l ∧ l.Nodup ∧ ∀ m a, Depends db m a → m ∈ l → a ∈ l →
      ∃ pre mid post, l = pre ++ m :: (mid ++ a :: post)) ∧
    ∀ op db1 master obj wide, Room db → CallsCreate db op db1 master obj wide →
      (∀ a, ¬ Relation.TransGen (DependsWith db1 master obj) a a) → ∃ db2, cfg_create_dep db1 master obj wide = some db2 := by
  obtain ⟨l,ordered⟩ := reached.order
  have book : DepBook db := DbReach.book (Reach.mono (fun _ _ safe => safe.1) reached)
  exact ⟨⟨l,ordered,ordered.linked.nodup,fun _ _ => ordered.before⟩,
    fun _ _ _ _ _ room call => create_returns reached.trees book ⟨l,ordered⟩ room call⟩

/-- No ordinal number is large, and masters have smaller addresses than what depends on them. -/
def plainOrder (db : Db) : Bool := (List.range db.objs.size).all fun a => (db.objs.get a).all fun x : CfgObject =>
  decide (x.ordinal_number+db.objs.live < UINT_MOD) && x.depends_on.all fun d => decide (d.depends < a)
omit [Libc] in
theorem plainOrder_safe (plain : plainOrder db = true) : Room db ∧ Acyclic db := by
  simp only [plainOrder,all_eq_true,mem_range,Option.all_eq_true,and_eq_true,decide_eq_true_eq] at plain
  refine ⟨fun a x found => (plain a (Heap.lt_size found) x found).1,acyclic_of_rank (r := id) fun depends => ?_⟩
  obtain ⟨x,d,found,member,rfl⟩ := depends
  exact (plain _ (Heap.lt_size found) x found).2 d member
theorem orderSafe_register {msg : CfgRegisterMsg} {rc : Rc} (plain : plainOrder db = true)
    (step : dbStep db (.register msg) = some (db',rc)) (plain' : plainOrder db' = true) : orderSafe db (.register msg) := by
  refine ⟨trivial,(plainOrder_safe plain).1,fun db2 rc2 again => ?_⟩
  have same : db2 = db' := congrArg Prod.fst (some.inj (again.symm.trans step))
  exact same ▸ (plainOrder_safe plain').2

/-- A child is registered, which depends on its father. -/
def childRun : List DbOp := [plainRegister "/a" .none .read_create,plainRegister "/a/b" .int32 .read_write]
omit [Libc] in
theorem topological_order_kept_child : ∃ db, plainRun childRun = some db ∧
    (∃ l, Ordered db l ∧ l.Nodup ∧ ∀ m a, Depends db m a → m ∈ l → a ∈ l →
      ∃ pre mid post, l = pre ++ m :: (mid ++ a :: post)) ∧
    ∀ op db1 master obj wide, Room db → @CallsCreate plainLibc db op db1 master obj wide →
      (∀ a, ¬ Relation.TransGen (DependsWith db1 master obj) a a) → ∃ db2, cfg_create_dep db1 master obj wide = some db2 := by
  obtain ⟨db1,db2,first,second,plain0,plain1,plain2⟩ : ∃ db1 db2,
      @dbStep plainLibc startDb (plainRegister "/a" .none .read_create) = some (db1,none) ∧
      @dbStep plainLibc db1 (plainRegister "/a/b" .int32 .read_write) = some (db2,none) ∧
      plainOrder startDb = true ∧ plainOrder db1 = true ∧ plainOrder db2 = true := by
    refine ⟨(plainRun [plainRegister "/a" .none .read_create]).getD emptyDb,(plainRun childRun).getD emptyDb,?_⟩
    decide +kernel
  have run : plainRun childRun = some db2 := by
    simp [plainRun,dbRun,childRun,first,second]
  have reached1 : @DbReach plainLibc (@orderSafe plainLibc) db1 :=
    .step (@startDb_reach plainLibc _) (@orderSafe_register plainLibc _ _ _ _ plain0 first plain1) ⟨none,first⟩
  have reached2 : @DbReach plainLibc (@orderSafe plainLibc) db2 :=
    .step reached1 (@orderSafe_register plainLibc _ _ _ _ plain1 second plain2) ⟨none,second⟩
  exact ⟨db2,run,@topological_order_kept plainLibc db2 reached2⟩
omit [Libc] in
/-- The reserved objects depend on each other and are never in the list. -/
theorem reserved_not_listed : ¬ ∀ db, @DbReach plainLibc (@orderSafe plainLibc) db → ∃ l, Listed db l ∧
    ∀ m a, Depends db m a → ∃ pre mid post, l = pre ++ m :: (mid ++ a :: post) := by
  intro all
  obtain ⟨l,listed,before⟩ := all startDb (@startDb_reach plainLibc _)
  obtain ⟨noHead,x,found,member⟩ : startDb.topological_order = none ∧ ∃ x, startDb.objs.get 3 = some x ∧
      (⟨2,true⟩ : CfgDependency) ∈ x.depends_on := by
    refine ⟨by decide +kernel,(startDb.objs.get 3).getD (reservedObjects[3]),?_⟩
    decide +kernel
  obtain ⟨pre,mid,post,split⟩ := before 2 3 ⟨x,⟨2,true⟩,found,member,rfl⟩
  have head := listed.head
  rw [noHead,split] at head
  simp at head
end
end TestEnvironment.Configurator
