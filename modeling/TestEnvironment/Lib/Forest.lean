import TestEnvironment.Lib.Heap

/-!
Trees whose nodes link to their father, to their first son and to their next
brother. `kids` lists the sons of each node in the order of the brother links;
the operations on the links (a new first son, a new brother behind a node, a
leaf left out) change these lists as expected and keep the tree. Every node is
reached from the root along exactly one path of son and brother links
(`Forest.unique_path`).
-/
namespace TestEnvironment.Lib

structure Links where
  father : Option Nat
  son : Option Nat
  brother : Option Nat
  deriving DecidableEq, Repr

/-- The links of the nodes in use. -/
abbrev LinkMap := Nat → Option Links

def brotherOf (L : LinkMap) : Nat → Option (Option Nat) := fun a => (L a).map Links.brother
def fatherOf (L : LinkMap) : Nat → Option (Option Nat) := fun a => (L a).map Links.father

/-- The links `L` make a tree below `root`, the sons of each node being those
    of the list `kids`; a son is allocated after its father. -/
structure Forest (L : LinkMap) (root : Nat) (kids : Nat → List Nat) : Prop where
  top : ∃ k, L root = some k ∧ k.father = none ∧ k.brother = none
  chain : ∀ {a k}, L a = some k → Chain (brotherOf L) k.son (kids a)
  dead : ∀ {a}, L a = none → kids a = []
  kid : ∀ {a b}, b ∈ kids a → ∃ k, L b = some k ∧ k.father = some a
  born : ∀ {b k}, L b = some k → b = root ∨ ∃ a, k.father = some a ∧ b ∈ kids a
  older : ∀ {a b}, b ∈ kids a → a < b

namespace Forest
variable {L L' : LinkMap} {root : Nat} {kids : Nat → List Nat} {a b q : Nat} {k : Links} {post l : List Nat}

section
variable (forest : Forest L root kids)
include forest
theorem nodup (a : Nat) : (kids a).Nodup := by
  cases found : L a with
  | none => simp [forest.dead found]
  | some k => exact (forest.chain found).nodup

theorem one_father {x : Nat} (inA : x ∈ kids a) (inB : x ∈ kids b) : a = b := by
  obtain ⟨k,found,father⟩ := forest.kid inA
  obtain ⟨k',found',father'⟩ := forest.kid inB
  have same : k = k' := some.inj (found.symm.trans found')
  subst same
  exact some.inj (father.symm.trans father')
theorem father_live (member : b ∈ kids a) : ∃ k, L a = some k := by
  cases found : L a with
  | none => simp [forest.dead found] at member
  | some k => exact ⟨k,rfl⟩
theorem father_of (found : L b = some k) :
    (b = root ∧ k.father = none) ∨ ∃ a m, k.father = some a ∧ L a = some m ∧ b ∈ kids a := by
  rcases forest.born found with rfl | ⟨a,up,member⟩
  · obtain ⟨top,live,noFather,-⟩ := forest.top
    obtain rfl : k = top := some.inj (found.symm.trans live)
    exact .inl ⟨rfl,noFather⟩
  · obtain ⟨m,live⟩ := forest.father_live member
    exact .inr ⟨a,m,up,live,member⟩
theorem root_not_kid (a : Nat) : root ∉ kids a := by
  intro member
  obtain ⟨k,found,father⟩ := forest.kid member
  obtain ⟨k',found',father',_⟩ := forest.top
  have same : k = k' := some.inj (found.symm.trans found')
  simp [same,father'] at father
theorem son_eq (found : L a = some k) : k.son = (kids a).head? :=
  (forest.chain found).head
/-- The brother link of a son leads to the next one of its father's list. -/
theorem brother_eq {f x : Nat} (pre : List Nat)
    (split : kids f = pre ++ x :: post) (found : L x = some k) : k.brother = post.head? := by
  obtain ⟨kf,father⟩ := forest.father_live (by simp [split] : x ∈ kids f)
  obtain ⟨link,_⟩ := (forest.chain father).after pre split
  simpa [brotherOf,found] using link


theorem not_kid {n : Nat} (free : L n = none) (a : Nat) : n ∉ kids a := by
  intro member
  obtain ⟨k,found,_⟩ := forest.kid member
  simp [free] at found
/-- A node `n` more among the sons of `f`: the chains have to be right, the rest
    follows from the father links. -/
theorem grow {f n : Nat} {kf : Links} (father : L f = some kf)
    (free : L n = none) (young : f < n) (perm : l.Perm (n :: kids f))
    (new : fatherOf L' n = some (some f)) (same : ∀ a, a ≠ n → fatherOf L' a = fatherOf L a)
    (alone : ∀ k, L' root = some k → k.brother = none)
    (chain : ∀ {a k}, L' a = some k → Chain (brotherOf L') k.son (update kids f l a)) :
    Forest L' root (update kids f l) := by
  have mem : ∀ a b, b ∈ update kids f l a ↔ a = f ∧ b = n ∨ b ∈ kids a := by grind
  have before : ∀ {a k}, L' a = some k → a ≠ n → ∃ k', L a = some k' ∧ k'.father = k.father := by
    intro a k found other
    have kept := same a other
    rw [fatherOf,found] at kept
    exact of_map kept.symm
  refine ⟨?_,chain,?_,?_,?_,?_⟩
  · obtain ⟨k,found,noFather,_⟩ := forest.top
    have notNew : root ≠ n := by rintro rfl; simp [free] at found
    have kept := same root notNew
    simp only [fatherOf,found,map_some,map_eq_some_iff] at kept
    obtain ⟨k',found',father'⟩ := kept
    exact ⟨k',found',father'.trans noFather,alone k' found'⟩
  · intro a missing
    have notNew : a ≠ n := by rintro rfl; simp [fatherOf,missing] at new
    have missing' : L a = none := by simpa [fatherOf,missing] using (same a notNew).symm
    by_contra nonempty
    obtain ⟨b,member⟩ := exists_mem_of_ne_nil _ nonempty
    rcases (mem a b).mp member with ⟨rfl,rfl⟩ | old
    · simp [father] at missing'
    · simp [forest.dead missing'] at old
  · intro a b member
    rcases (mem a b).mp member with ⟨rfl,rfl⟩ | old
    · simpa [fatherOf] using new
    · obtain ⟨k,found,father⟩ := forest.kid old
      have kept := same b (fun equal => forest.not_kid free a (equal ▸ old))
      simpa [fatherOf,found,father] using kept
  · intro b k found
    by_cases isNew : b = n
    · subst isNew
      exact .inr ⟨f,by simpa [fatherOf,found] using new,(mem f b).mpr (.inl ⟨rfl,rfl⟩)⟩
    · obtain ⟨k',found',up⟩ := before found isNew
      rcases forest.born found' with top | ⟨a,father,member⟩
      · exact .inl top
      · exact .inr ⟨a,up.symm.trans father,(mem a b).mpr (.inr member)⟩
  · intro a b member
    rcases (mem a b).mp member with ⟨rfl,rfl⟩ | old
    · exact young
    · exact forest.older old
/-- A leaf `x` less among the sons of `f`. -/
theorem shrink {f x : Nat} (leaf : kids x = [])
    (perm : (kids f).Perm (x :: l)) (gone : L' x = none) (same : ∀ a, a ≠ x → fatherOf L' a = fatherOf L a)
    (alone : ∀ k, L' root = some k → k.brother = none)
    (chain : ∀ {a k}, L' a = some k → Chain (brotherOf L') k.son (update kids f l a)) :
    Forest L' root (update kids f l) := by
  have kid : x ∈ kids f := perm.mem_iff.mpr (by simp)
  have distinct : x ∉ l := (nodup_cons.mp (perm.nodup_iff.mp (forest.nodup f))).1
  have mem : ∀ a b, b ∈ update kids f l a ↔ b ≠ x ∧ b ∈ kids a := by
    intro a b
    by_cases atFather : a = f
    · grind
    · rw [update_of_ne atFather]
      exact ⟨fun member => ⟨fun equal => atFather (forest.one_father (equal ▸ member) kid),member⟩,And.right⟩
  have before : ∀ {a k}, L' a = some k → a ≠ x ∧ ∃ k', L a = some k' ∧ k'.father = k.father := by
    intro a k found
    have other : a ≠ x := by rintro rfl; simp [gone] at found
    have kept := same a other
    rw [fatherOf,found] at kept
    exact ⟨other,of_map kept.symm⟩
  refine ⟨?_,chain,?_,?_,?_,?_⟩
  · obtain ⟨k,found,noFather,_⟩ := forest.top
    have kept := same root (fun equal => forest.root_not_kid f (equal ▸ kid))
    simp only [fatherOf,found,map_some,map_eq_some_iff] at kept
    obtain ⟨k',found',father'⟩ := kept
    exact ⟨k',found',father'.trans noFather,alone k' found'⟩
  · intro a missing
    by_contra nonempty
    obtain ⟨b,member⟩ := exists_mem_of_ne_nil _ nonempty
    obtain ⟨_,old⟩ := (mem a b).mp member
    by_cases isGone : a = x
    · simp [isGone,leaf] at old
    · have missing' : L a = none := by simpa [fatherOf,missing] using (same a isGone).symm
      simp [forest.dead missing'] at old
  · intro a b member
    obtain ⟨other,old⟩ := (mem a b).mp member
    obtain ⟨k,found,father⟩ := forest.kid old
    simpa [fatherOf,found,father] using same b other
  · intro b k found
    obtain ⟨other,k',found',up⟩ := before found
    rcases forest.born found' with top | ⟨a,father,member⟩
    · exact .inl top
    · exact .inr ⟨a,up.symm.trans father,(mem a b).mpr ⟨other,member⟩⟩
  · intro a b member
    exact forest.older ((mem a b).mp member).2
end

section
variable {f n x : Nat} {kf kx : Links}

theorem brotherOf_same (same : L' a = L a) : brotherOf L' a = brotherOf L a := by simp [brotherOf,same]
theorem fatherOf_same (same : L' a = L a) : fatherOf L' a = fatherOf L a := by simp [fatherOf,same]

variable (forest : Forest L root kids)
include forest
/-- A new first son. -/
theorem push (father : L f = some kf) (free : L n = none) (young : f < n)
    (new : L' n = some ⟨some f,none,kf.son⟩) (here : L' f = some {kf with son := some n})
    (same : ∀ a, a ≠ n → a ≠ f → L' a = L a) : Forest L' root (update kids f (n :: kids f)) := by
  have next : ∀ a, a ≠ n → brotherOf L' a = brotherOf L a := by grind [brotherOf]
  have kept : ∀ {p l}, Chain (brotherOf L) p l → n ∉ l → Chain (brotherOf L') p l := fun old absent =>
    old.congr fun a member => next a (fun equal => absent (equal ▸ member))
  refine forest.grow father free young (.refl _) (by simp [fatherOf,new]) ?_ ?_ ?_
  · intro a other
    by_cases atFather : a = f
    · subst atFather; simp [fatherOf,here,father]
    · exact fatherOf_same (same a other atFather)
  · intro k found
    obtain ⟨k',found',_,alone⟩ := forest.top
    have notNew : root ≠ n := by rintro rfl; simp [free] at found'
    have brother := next root notNew
    simpa [brotherOf,found,found',alone] using brother
  · intro a k found
    by_cases isNew : a = n
    · subst isNew
      have equal : k = ⟨some f,none,kf.son⟩ := some.inj (found.symm.trans new)
      rw [equal,update_of_ne (by omega),forest.dead free]
      exact .nil
    · by_cases atFather : a = f
      · subst atFather
        have equal : k = {kf with son := some n} := some.inj (found.symm.trans here)
        rw [equal,update_self]
        exact .cons (by simp [brotherOf,new]) (kept (forest.chain father) (forest.not_kid free a))
      · rw [update_of_ne atFather]
        exact kept (forest.chain ((same a isNew atFather).symm.trans found)) (forest.not_kid free a)

variable {kq : Links} {prev : Option Nat}

variable {pre : List Nat}

/-- A new son behind the son `q`. -/
theorem insertBehind (split : kids f = pre ++ q :: post) (prev : L q = some kq) (free : L n = none) (young : f < n)
    (new : L' n = some ⟨some f,none,kq.brother⟩) (here : L' q = some {kq with brother := some n})
    (same : ∀ a, a ≠ n → a ≠ q → L' a = L a) : Forest L' root (update kids f (pre ++ q :: n :: post)) := by
  have member : q ∈ kids f := by simp [split]
  obtain ⟨kf,father⟩ := forest.father_live member
  have link := forest.brother_eq pre split prev
  have notRoot : root ≠ q := fun equal => forest.root_not_kid f (equal ▸ member)
  have kept : ∀ {p l}, Chain (brotherOf L) p l → n ∉ l → q ∉ l → Chain (brotherOf L') p l :=
    fun old absent absent' => old.congr fun a inside =>
      brotherOf_same (same a (fun equal => absent (equal ▸ inside)) (fun equal => absent' (equal ▸ inside)))
  have sonKept : ∀ {a k}, a ≠ n → L' a = some k → ∃ k', L a = some k' ∧ k'.son = k.son := by
    intro a k other found
    by_cases atPrev : a = q
    · subst atPrev
      have equal : k = {kq with brother := some n} := some.inj (found.symm.trans here)
      exact ⟨kq,prev,by simp [equal]⟩
    · exact ⟨k,(same a other atPrev).symm.trans found,rfl⟩
  refine forest.grow father free young ?_ (by simp [fatherOf,new]) ?_ ?_ ?_
  · rw [split]
    simpa using @List.perm_middle _ n (pre ++ [q]) post
  · intro a other
    by_cases atPrev : a = q
    · subst atPrev; simp [fatherOf,here,prev]
    · exact fatherOf_same (same a other atPrev)
  · intro k found
    obtain ⟨k',found',_,alone⟩ := forest.top
    have notNew : root ≠ n := by rintro rfl; simp [free] at found'
    have equal : k = k' := some.inj (found.symm.trans ((same root notNew notRoot).trans found'))
    rw [equal,alone]
  · intro a k found
    by_cases isNew : a = n
    · subst isNew
      have equal : k = ⟨some f,none,kq.brother⟩ := some.inj (found.symm.trans new)
      rw [equal,update_of_ne (by omega),forest.dead free]
      exact .nil
    · obtain ⟨k',found',son⟩ := sonKept isNew found
      rw [← son]
      by_cases atFather : a = f
      · subst atFather
        rw [update_self]
        have old := forest.chain found'
        rw [split] at old
        refine old.insert ?_ (by simp [brotherOf,here]) (by simp [brotherOf,new,link]) ?_
        · rw [← split]; exact forest.not_kid free a
        · exact fun b notPrev notNew => brotherOf_same (same b notNew notPrev)
      · rw [update_of_ne atFather]
        exact kept (forest.chain found') (forest.not_kid free a)
          (fun inside => atFather (forest.one_father inside member))

/-- A new son behind the sons `pre`: the link that changes is the one of the last
    of them, or the son link of the father if there is none. -/
theorem insertAt (split : kids f = pre ++ post) (place : prev = pre.getLast?) (father : L f = some kf)
    (found : L (prev.getD f) = some k) (free : L n = none) (young : f < n)
    (new : L' n = some ⟨some f,none,if prev.isSome then k.brother else k.son⟩)
    (here : L' (prev.getD f) = some (if prev.isSome then {k with brother := some n} else {k with son := some n}))
    (same : ∀ a, a ≠ n → a ≠ prev.getD f → L' a = L a) : Forest L' root (update kids f (pre ++ n :: post)) := by
  rcases eq_nil_or_concat pre with rfl | ⟨front,q,rfl⟩
  · have noPrev : prev = none := by simpa using place
    subst noPrev
    have equal : k = kf := some.inj (found.symm.trans father)
    subst equal
    have whole : kids f = post := by simpa using split
    have pushed := forest.push father free young (by simpa using new) (by simpa using here) (by simpa using same)
    rw [whole] at pushed
    simpa using pushed
  · have last : prev = some q := by simpa using place
    subst last
    have behind := forest.insertBehind (show kids f = front ++ q :: post by simpa using split) found free young
      (by simpa using new) (by simpa using here) (by simpa using same)
    simpa using behind

/-- The first son left out; it is a leaf. -/
theorem unlinkFirst (split : kids f = x :: post)
    (father : L f = some kf) (here : L x = some kx) (leaf : kids x = []) (gone : L' x = none)
    (now : L' f = some {kf with son := kx.brother}) (same : ∀ a, a ≠ x → a ≠ f → L' a = L a) :
    Forest L' root (update kids f post) := by
  have member : x ∈ kids f := by simp [split]
  have link := forest.brother_eq [] split here
  have next : ∀ a, a ≠ x → brotherOf L' a = brotherOf L a := by grind [brotherOf]
  refine forest.shrink leaf (by rw [split]) gone ?_ ?_ ?_
  · grind [fatherOf]
  · intro k found
    obtain ⟨k',found',_,alone⟩ := forest.top
    have notGone : root ≠ x := fun equal => forest.root_not_kid f (equal ▸ member)
    simpa [brotherOf,found,found',alone] using next root notGone
  · intro a k found
    have notGone : a ≠ x := by rintro rfl; simp [gone] at found
    by_cases atFather : a = f
    · subst atFather
      have equal : k = {kf with son := kx.brother} := some.inj (found.symm.trans now)
      rw [equal,update_self]
      have old := forest.chain father
      rw [split] at old
      obtain ⟨_,rest⟩ := old.after [] rfl
      simp only [link]
      refine rest.congr fun b inside => next b ?_
      rintro rfl
      exact (nodup_cons.mp (split ▸ forest.nodup a)).1 inside
    · rw [update_of_ne atFather]
      refine (forest.chain ((same a notGone atFather).symm.trans found)).congr fun b inside => next b ?_
      rintro rfl
      exact atFather (forest.one_father inside member)

/-- A son left out that stands behind the son `q`; it is a leaf. -/
theorem unlinkBehind
    (split : kids f = pre ++ q :: x :: post) (prev : L q = some kq) (here : L x = some kx) (leaf : kids x = [])
    (gone : L' x = none) (now : L' q = some {kq with brother := kx.brother})
    (same : ∀ a, a ≠ x → a ≠ q → L' a = L a) : Forest L' root (update kids f (pre ++ q :: post)) := by
  have member : x ∈ kids f := by simp [split]
  have memberPrev : q ∈ kids f := by simp [split]
  have link := forest.brother_eq (pre ++ [q]) (by simpa using split) here
  refine forest.shrink leaf ?_ gone ?_ ?_ ?_
  · rw [split]
    simpa using @List.perm_middle _ x (pre ++ [q]) post
  · grind [fatherOf]
  · intro k found
    obtain ⟨k',found',_,alone⟩ := forest.top
    have notGone : root ≠ x := fun equal => forest.root_not_kid f (equal ▸ member)
    have notPrev : root ≠ q := fun equal => forest.root_not_kid f (equal ▸ memberPrev)
    have equal : k = k' := some.inj (found.symm.trans ((same root notGone notPrev).trans found'))
    rw [equal,alone]
  · intro a k found
    have sonKept : ∃ k', L a = some k' ∧ k'.son = k.son := by grind
    obtain ⟨k',found',son⟩ := sonKept
    rw [← son]
    by_cases atFather : a = f
    · subst atFather
      rw [update_self]
      have old := forest.chain found'
      rw [split] at old
      refine old.erase (by simp [brotherOf,now,link]) ?_
      exact fun b notPrev notGone' => brotherOf_same (same b notGone' notPrev)
    · rw [update_of_ne atFather]
      refine (forest.chain found').congr fun b inside => brotherOf_same (same b ?_ ?_)
      · rintro rfl; exact atFather (forest.one_father inside member)
      · rintro rfl; exact atFather (forest.one_father inside memberPrev)
/-- A leaf left out behind the sons `pre`. -/
theorem unlinkAt
    (split : kids f = pre ++ x :: post) (place : prev = pre.getLast?) (father : L f = some kf) (here : L x = some kx)
    (found : L (prev.getD f) = some k) (leaf : kids x = []) (gone : L' x = none)
    (now : L' (prev.getD f) = some (if prev.isSome then {k with brother := kx.brother} else {k with son := kx.brother}))
    (same : ∀ a, a ≠ x → a ≠ prev.getD f → L' a = L a) : Forest L' root (update kids f (pre ++ post)) := by
  rcases eq_nil_or_concat pre with rfl | ⟨front,q,rfl⟩
  · have noPrev : prev = none := by simpa using place
    subst noPrev
    have equal : k = kf := some.inj (found.symm.trans father)
    subst equal
    exact forest.unlinkFirst (by simpa using split) father here leaf gone (by simpa using now) (by simpa using same)
  · have last : prev = some q := by simpa using place
    subst last
    have behind := forest.unlinkBehind (show kids f = front ++ q :: x :: post by simpa using split) found here leaf gone
      (by simpa using now) (by simpa using same)
    simpa using behind
end

section
/-- The node `b` is `a` or a descendant of `a`. -/
def Below (kids : Nat → List Nat) : Nat → Nat → Prop := Relation.ReflTransGen fun a b => b ∈ kids a

theorem below_le (forest : Forest L root kids) (below : Below kids a b) : a ≤ b := by
  induction below with
  | refl => exact Nat.le_refl _
  | tail _ member ih => exact Nat.le_of_lt (Nat.lt_of_le_of_lt ih (forest.older member))
/-- The last step to a node below leads from its father. -/
theorem below_father (forest : Forest L root kids) {f : Nat} (below : Below kids a b) (member : b ∈ kids f) :
    a = b ∨ Below kids a f := by
  cases below with
  | refl => exact .inl rfl
  | @tail c _ above last => exact .inr (forest.one_father last member ▸ above)
/-- Nothing is below two sons of one node. -/
theorem below_disjoint (forest : Forest L root kids) {f r r' : Nat} (son : r ∈ kids f) (son' : r' ∈ kids f)
    (below : Below kids r a) (below' : Below kids r' a) : r = r' := by
  have notAbove : ∀ {s}, s ∈ kids f → ¬ Below kids s f := fun member down => by
    have := forest.below_le down
    have := forest.older member
    omega
  induction below with
  | refl =>
    rcases forest.below_father below' son with equal | above
    · exact equal.symm
    · exact absurd above (notAbove son')
  | @tail c a above member ih =>
    rcases forest.below_father below' member with equal | under
    · subst equal
      have same := forest.one_father member son'
      subst same
      exact absurd above (notAbove son)
    · exact ih under
/-- Where the sons of the nodes below `r` are the same, the same nodes are below it. -/
theorem below_congr {kids' : Nat → List Nat} {r : Nat} (same : ∀ a, Below kids r a → kids' a = kids a) :
    Below kids' r b ↔ Below kids r b := by
  constructor
  · intro below
    induction below with
    | refl => exact .refl
    | tail _ member ih => exact ih.tail (by rwa [same _ ih] at member)
  · intro below
    induction below with
    | refl => exact .refl
    | @tail c _ above member ih => exact ih.tail (by rwa [same c above])
end

section
/-- A move down to the first son or right to the next brother. -/
inductive Turn
  | son
  | brother
  deriving DecidableEq, Repr

def turn (L : LinkMap) (a : Nat) (t : Turn) : Option Nat :=
  (L a).bind fun k => match t with
    | .son => k.son
    | .brother => k.brother
/-- The node at the end of a path of links. -/
def follow (L : LinkMap) (a : Nat) : List Turn → Option Nat
  | [] => some a
  | t :: path => (turn L a t).bind fun b => follow L b path

theorem follow_append (L : LinkMap) (a : Nat) (path rest : List Turn) :
    follow L a (path ++ rest) = (follow L a path).bind fun b => follow L b rest := by
  induction path generalizing a with
  | nil => rfl
  | cons t path ih => cases step : turn L a t <;> simp [follow,step,ih]
theorem follow_concat (L : LinkMap) (a : Nat) (path : List Turn) (t : Turn) :
    follow L a (path ++ [t]) = (follow L a path).bind fun b => turn L b t := by simp [follow_append,follow]

variable {t : Turn} {path : List Turn}

variable (forest : Forest L root kids)
include forest
/-- Where a link to a node may come from: from the father if it is the first
    son, otherwise from the brother before it. -/
theorem turn_eq (link : turn L b t = some a) : ∃ f, a ∈ kids f ∧ match t with
      | .son => b = f ∧ (kids f).head? = some a
      | .brother => ∃ pre post, kids f = pre ++ b :: a :: post := by
  unfold turn at link
  obtain ⟨k,found,link⟩ := of_bind link
  cases t with
  | son =>
    have head : (kids b).head? = some a := (forest.son_eq found).symm.trans link
    exact ⟨b,mem_of_mem_head? head,rfl,head⟩
  | brother =>
    rcases forest.born found with top | ⟨f,_,member⟩
    · obtain ⟨k',found',_,alone⟩ := forest.top
      have equal : k = k' := some.inj (found.symm.trans (top ▸ found'))
      simp [equal,alone] at link
    · obtain ⟨pre,post,split⟩ := append_of_mem member
      have next : post.head? = some a := (forest.brother_eq pre split found).symm.trans link
      obtain ⟨rest,rfl⟩ := List.head?_eq_some_iff.mp next
      exact ⟨f,by simp [split],pre,rest,split⟩
theorem turn_live (link : turn L b t = some a) : ∃ k, L a = some k := by
  obtain ⟨f,member,_⟩ := forest.turn_eq link
  obtain ⟨k,found,_⟩ := forest.kid member
  exact ⟨k,found⟩
/-- At most one link leads to a node. -/
theorem turn_unique {b' : Nat} {t' : Turn} (link : turn L b t = some a)
    (link' : turn L b' t' = some a) : b = b' ∧ t = t' := by
  obtain ⟨f,member,way⟩ := forest.turn_eq link
  obtain ⟨f',member',way'⟩ := forest.turn_eq link'
  have same := forest.one_father member member'
  subst same
  have distinct := forest.nodup f
  -- A first son is behind no brother.
  have first : ∀ {c}, (kids f).head? = some a → ¬ ∃ pre post, kids f = pre ++ c :: a :: post := by
    rintro c head ⟨pre,post,split⟩
    rw [split] at head distinct
    cases pre with
    | nil =>
      have equal : c = a := by simpa using head
      simp [equal] at distinct
    | cons d pre =>
      have equal : d = a := by simpa using head
      simp [equal] at distinct
  cases t with
  | son =>
    cases t' with
    | son => exact ⟨way.1.trans way'.1.symm,rfl⟩
    | brother => exact absurd way' (first way.2)
  | brother =>
    cases t' with
    | son => exact absurd way (first way'.2)
    | brother =>
      obtain ⟨pre,post,split⟩ := way
      obtain ⟨pre',post',split'⟩ := way'
      have position : (pre ++ [b]).length = (pre' ++ [b']).length := by
        have at1 : (kids f)[(pre ++ [b]).length]? = some a := by simp [split]
        have at2 : (kids f)[(pre' ++ [b']).length]? = some a := by simp [split']
        exact (List.getElem?_inj (by simp [split]) distinct).mp (at1.trans at2.symm)
      have equal : pre ++ [b] ++ (a :: post) = pre' ++ [b'] ++ (a :: post') := by
        simpa using split.symm.trans split'
      have heads := (List.append_inj equal position).1
      exact ⟨by simpa using (append_inj' heads rfl).2,rfl⟩
variable {front : List Nat}

/-- The first brother whose link leads to `x` is the one before `x`. -/
theorem find_before {f x : Nat} (split : kids f = front ++ q :: x :: post) :
    (kids f).find? (fun a => decide (brotherOf L a = some (some x))) = some q := by
  have link {a : Nat} (leads : brotherOf L a = some (some x)) : turn L a .brother = some x := by
    obtain ⟨k,found,same⟩ := of_map leads
    simp [turn,found,same]
  obtain ⟨k,found,_⟩ := forest.kid (by simp [split] : q ∈ kids f)
  have here : brotherOf L q = some (some x) := by simp [brotherOf,found,forest.brother_eq front split found]
  have distinct := split ▸ forest.nodup f
  have earlier : front.find? (fun a => decide (brotherOf L a = some (some x))) = none := by
    refine find?_eq_none.mpr fun a member hit => ?_
    obtain ⟨rfl,_⟩ := forest.turn_unique (link (by simpa using hit)) (link here)
    exact (nodup_append.mp distinct).2.2 _ member _ (by simp) rfl
  rw [split,List.find?_append,earlier]
  simp [here]
/-- The same for the links of a heap. -/
theorem find_link_before {h : Heap α} {next : α → Option Nat} (same : linkOf h next = brotherOf L)
    {f x : Nat} (split : kids f = front ++ q :: x :: post) :
    (kids f).find? (testAt h fun y => decide (next y = some x)) = some q := by
  have test : testAt h (fun y => decide (next y = some x)) = fun a => decide (brotherOf L a = some (some x)) := by
    funext a
    rw [← same]
    cases there : h.get a <;> simp [testAt,linkOf,there]
  rw [test]
  exact forest.find_before split
theorem son_not_later {f x : Nat} (found : L f = some k) (split : kids f = front ++ q :: x :: post) : k.son ≠ some x := by
  have distinct := split ▸ forest.nodup f
  rw [forest.son_eq found,split]
  intro equal
  cases front with
  | nil | cons a front => simp at equal; simp [equal] at distinct
theorem no_turn_to_root (b : Nat) (t : Turn) : turn L b t ≠ some root := by
  intro link
  obtain ⟨f,member,_⟩ := forest.turn_eq link
  exact forest.root_not_kid f member

theorem follow_live (reached : follow L root path = some a) : ∃ k, L a = some k := by
  rcases eq_nil_or_concat path with rfl | ⟨path,t,rfl⟩
  · obtain ⟨k,found,_⟩ := forest.top
    have same : root = a := by simpa [follow] using reached
    exact ⟨k,same ▸ found⟩
  · rw [concat_eq_append,follow_concat] at reached
    obtain ⟨b,_,link⟩ := of_bind reached
    exact forest.turn_live link
theorem follow_unique {path' : List Turn}
    (reached : follow L root path = some a) (reached' : follow L root path' = some a) : path = path' := by
  induction path using List.reverseRecOn generalizing a path' with
  | nil =>
    have same : root = a := by simpa [follow] using reached
    subst same
    rcases eq_nil_or_concat path' with rfl | ⟨path',t,rfl⟩
    · rfl
    · rw [concat_eq_append,follow_concat] at reached'
      obtain ⟨b,_,link⟩ := of_bind reached'
      exact absurd link (forest.no_turn_to_root b t)
  | append_singleton path t ih =>
    rw [follow_concat] at reached
    obtain ⟨b,here,link⟩ := of_bind reached
    rcases eq_nil_or_concat path' with rfl | ⟨path',t',rfl⟩
    · have same : root = a := by simpa [follow] using reached'
      exact absurd (same ▸ link) (forest.no_turn_to_root b t)
    · rw [concat_eq_append,follow_concat] at reached'
      obtain ⟨b',here',link'⟩ := of_bind reached'
      obtain ⟨rfl,rfl⟩ := forest.turn_unique link link'
      rw [concat_eq_append,ih here here']
/-- Brothers are reached from the first son by brother links. -/
theorem follow_brothers {f : Nat} (pre : List Nat)
    (split : kids f = pre ++ a :: post) (father : follow L root path = some f) : ∃ path', follow L root path' = some a := by
  induction pre using List.reverseRecOn generalizing a post with
  | nil =>
    obtain ⟨k,found⟩ := forest.father_live (by simp [split] : a ∈ kids f)
    have son : turn L f .son = some a := by simp [turn,found,forest.son_eq found,split]
    exact ⟨path ++ [.son],by simp [follow_concat,father,son]⟩
  | append_singleton pre q ih =>
    have split' : kids f = pre ++ q :: a :: post := by simpa using split
    obtain ⟨path',reached⟩ := ih split'
    obtain ⟨k,found,_⟩ := forest.kid (by simp [split'] : q ∈ kids f)
    have next : turn L q .brother = some a := by
      simp [turn,found,forest.brother_eq pre split' found]
    exact ⟨path' ++ [.brother],by simp [follow_concat,reached,next]⟩
/-- Every node in use is at the end of a path from the root. -/
theorem follow_exists (found : L a = some k) : ∃ path, follow L root path = some a := by
  induction a using Nat.strongRecOn generalizing k with
  | ind a ih =>
    rcases forest.born found with rfl | ⟨f,_,member⟩
    · exact ⟨[],rfl⟩
    · obtain ⟨kf,father⟩ := forest.father_live member
      obtain ⟨path,reached⟩ := ih f (forest.older member) father
      obtain ⟨pre,post,split⟩ := append_of_mem member
      exact forest.follow_brothers pre split reached
/-- The nodes in use are those reached by exactly one path of links. -/
theorem unique_path (a : Nat) : (∃! path, follow L root path = some a) ↔ ∃ k, L a = some k := by
  constructor
  · rintro ⟨path,reached,_⟩
    exact forest.follow_live reached
  · rintro ⟨k,found⟩
    obtain ⟨path,reached⟩ := forest.follow_exists found
    exact ⟨path,reached,fun other again => forest.follow_unique again reached⟩
end
end Forest
end TestEnvironment.Lib
