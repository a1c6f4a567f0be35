import TestEnvironment.Lib.Names

/-!
Memory cells behind addresses, as `malloc` and `free` hand them out, and the
null-terminated chains that one link field of the cells makes of them.
Addresses are numbers and a pointer is an optional one. An address is never
handed out twice, so a pointer kept after `free` is told from a pointer to a
later cell.
-/
namespace TestEnvironment.Lib
universe u

/-- All cells ever allocated, at their addresses; a freed cell is `none`. -/
structure Heap (α : Type u) where
  cells : List (Option α)
  deriving Repr, DecidableEq

namespace Heap
variable {α : Type u}

def size (h : Heap α) : Nat := h.cells.length
def get (h : Heap α) (a : Nat) : Option α := (h.cells[a]?).join
/-- The address of the next cell allocated. -/
def fresh (h : Heap α) : Nat := h.cells.length
def alloc (h : Heap α) (x : α) : Heap α := ⟨h.cells ++ [some x]⟩
def modify (h : Heap α) (a : Nat) (f : α → α) : Heap α := ⟨h.cells.modify a (Option.map f)⟩
def free (h : Heap α) (a : Nat) : Heap α := ⟨h.cells.modify a (fun _ => none)⟩
/-- The number of cells in use. -/
def live (h : Heap α) : Nat := h.cells.countP Option.isSome

section
variable (h : Heap α)
include h
theorem get_alloc (x : α) (b : Nat) :
    (h.alloc x).get b = if b = h.fresh then some x else h.get b := by grind [get,alloc,fresh]
theorem get_modify (a : Nat) (f : α → α) (b : Nat) :
    (h.modify a f).get b = if b = a then (h.get a).map f else h.get b := by grind [get,modify]
theorem get_free (a b : Nat) : (h.free a).get b = if b = a then none else h.get b := by grind [get,free]
@[simp] theorem size_alloc (x : α) : (h.alloc x).size = h.size+1 := by simp [size,alloc]
@[simp] theorem size_modify (a : Nat) (f : α → α) : (h.modify a f).size = h.size := by
  simp [size,modify]
@[simp] theorem size_free (a : Nat) : (h.free a).size = h.size := by simp [size,free]
@[simp] theorem fresh_eq_size : h.fresh = h.size := rfl
end

variable {x : α}

/-- A cell added and another one changed. -/
theorem get_alloc_modify {h : Heap α} {p b : Nat} {g : α → α} (old : p < h.size) :
    ((h.alloc x).modify p g).get b = if b = h.size then some x else if b = p then (h.get p).map g else h.get b := by
  grind [get_modify,get_alloc,fresh_eq_size]
theorem lt_size {h : Heap α} {a : Nat} (found : h.get a = some x) : a < h.size := by
  by_contra beyond
  have missing : h.cells[a]? = none := getElem?_eq_none (Nat.not_lt.mp beyond)
  simp [get,missing] at found
theorem get_fresh (h : Heap α) : h.get h.size = none := by simp [get,size]

theorem live_le_size (h : Heap α) : h.live ≤ h.size := List.countP_le_length
/-- Changing a cell in use leaves as many cells in use. -/
theorem live_modify (h : Heap α) (a : Nat) (f : α → α) : (h.modify a f).live = h.live := by
  unfold live modify
  generalize h.cells = cells
  induction cells generalizing a with
  | nil => simp
  | cons cell rest ih => grind
theorem live_free {h : Heap α} {a : Nat} (found : h.get a = some x) : (h.free a).live+1 = h.live := by
  unfold live free
  unfold get at found
  generalize h.cells = cells at found
  induction cells generalizing a with
  | nil => simp at found
  | cons cell rest ih => grind
end Heap

/-- The cells from `p` on, in the order of their links; the last link is null. -/
inductive Chain (next : Nat → Option (Option Nat)) : Option Nat → List Nat → Prop
  | nil : Chain next none []
  | cons {a : Nat} {p : Option Nat} {l : List Nat} :
      next a = some p → Chain next p l → Chain next (some a) (a :: l)

namespace Chain
variable {next next' : Nat → Option (Option Nat)} {p : Option Nat} {l post pre : List Nat}

section
variable (chain : Chain next p l)
include chain
theorem head : p = l.head? := by
  cases chain <;> rfl
theorem unique {l' : List Nat} (other : Chain next p l') : l = l' := by
  induction chain generalizing l' with
  | nil => cases other; rfl
  | cons link rest ih =>
    cases other with
    | cons link' rest' => grind
theorem live : ∀ a ∈ l, (next a).isSome := by
  induction chain with
  | nil => simp
  | cons link _ ih => grind

/-- What follows a cell of a chain is a chain. -/
theorem after (pre : List Nat) {a : Nat}
    (split : l = pre ++ a :: post) : next a = some post.head? ∧ Chain next post.head? post := by
  induction pre generalizing p l with
  | nil =>
    subst split
    cases chain with
    | cons link rest =>
      rw [← rest.head]
      exact ⟨link,rest⟩
  | cons b pre ih =>
    subst split
    cases chain with
    | cons link rest => exact ih rest rfl
theorem nodup : l.Nodup := by
  induction chain with
  | nil => exact nodup_nil
  | @cons a p l link rest ih =>
    refine nodup_cons.mpr ⟨?_,ih⟩
    intro member
    -- The rest of the chain behind the second visit would be the rest behind the first.
    obtain ⟨pre,post,split⟩ := append_of_mem member
    obtain ⟨again,tail⟩ := rest.after pre split
    have same := some.inj (again.symm.trans link)
    rw [same] at tail
    have equal := tail.unique rest
    have longer : l.length = pre.length + (post.length+1) := by simp [split]
    rw [equal] at longer
    omega
theorem congr (same : ∀ a ∈ l, next' a = next a) : Chain next' p l := by
  induction chain with
  | nil => exact .nil
  | cons link rest ih =>
    exact .cons ((same _ (by simp)).trans link) (ih fun b member => same b (by simp [member]))
end
/-- A new cell behind the cell `q`. -/
theorem insert {q n : Nat} (chain : Chain next p (pre ++ q :: post))
    (absent : n ∉ pre ++ q :: post) (link : next' q = some (some n)) (rest : next' n = some post.head?)
    (same : ∀ a, a ≠ q → a ≠ n → next' a = next a) : Chain next' p (pre ++ q :: n :: post) := by
  have distinct := chain.nodup
  induction pre generalizing p with
  | nil =>
    cases chain with
    | @cons _ _ _ _ tail =>
      refine .cons link (.cons rest ?_)
      rw [← tail.head]
      refine tail.congr fun a member => same a ?_ ?_
      · rintro rfl; exact (nodup_cons.mp distinct).1 member
      · rintro rfl; exact absent (by simp [member])
  | cons b pre ih =>
    cases chain with
    | @cons _ _ _ here tail =>
      have notQ : b ≠ q := by rintro rfl; simp at distinct
      have notN : b ≠ n := by rintro rfl; simp at absent
      exact .cons ((same b notQ notN).trans here)
        (ih tail (fun member => absent (by simpa using .inr (by simpa using member))) (nodup_cons.mp distinct).2)
/-- The cell behind the cell `q` left out. -/
theorem erase {q x : Nat} (chain : Chain next p (pre ++ q :: x :: post))
    (link : next' q = some post.head?) (same : ∀ a, a ≠ q → a ≠ x → next' a = next a) :
    Chain next' p (pre ++ q :: post) := by
  have distinct := chain.nodup
  induction pre generalizing p with
  | nil =>
    cases chain with
    | cons here tail =>
      cases tail with
      | @cons _ _ _ there tail =>
        refine .cons link ?_
        rw [← tail.head]
        refine tail.congr fun a member => same a ?_ ?_
        · rintro rfl; simp [member] at distinct
        · rintro rfl; simp [member] at distinct
  | cons b pre ih =>
    cases chain with
    | @cons _ _ _ here tail =>
      have notQ : b ≠ q := by rintro rfl; simp at distinct
      have notX : b ≠ x := by rintro rfl; simp at distinct
      exact .cons ((same b notQ notX).trans here) (ih tail (nodup_cons.mp distinct).2)
end Chain

section
variable {α : Type u} (h : Heap α) (next : α → Option Nat) (p : α → Bool)

/-- `for (x = start; x != NULL && !p(x); x = next(x));`: where the loop stops,
    unless it reads a freed cell or visits more than `fuel` cells. -/
def scan : Nat → Option Nat → Option (Option Nat)
  | _, none => some none
  | 0, some _ => none
  | n+1, some a => (h.get a).bind fun x => if p x then some (some a) else scan n (next x)

/-- The same loop that also keeps the cell before the one it stops at. -/
def scanPrev : Nat → Option Nat → Option Nat → Option (Option Nat × Option Nat)
  | _, prev, none => some (prev,none)
  | 0, _, some _ => none
  | n+1, prev, some a => (h.get a).bind fun x =>
    if p x then some (prev,some a) else scanPrev n (some a) (next x)

/-- The links that a field of the cells makes. -/
def linkOf : Nat → Option (Option Nat) := fun a => (h.get a).map next
/-- The test of the cell at an address. -/
def testAt : Nat → Bool := fun a => (h.get a).any p

variable {h next p}

variable {start : Option Nat} {fuel : Nat}

theorem chain_length {l : List Nat} (chain : Chain (linkOf h next) start l) : l.length ≤ h.size := by
  have inside : l ⊆ List.range h.size := by
    intro a member
    have used := chain.live a member
    unfold linkOf at used
    cases found : h.get a with
    | none => simp [found] at used
    | some x => exact mem_range.mpr (Heap.lt_size found)
  simpa using (List.subperm_of_subset chain.nodup inside).length_le
theorem scan_eq {l : List Nat} (chain : Chain (linkOf h next) start l)
    (enough : l.length ≤ fuel) : scan h next p fuel start = some (l.find? (testAt h p)) := by
  induction chain generalizing fuel with
  | nil => cases fuel <;> simp [scan]
  | @cons a q l link rest ih =>
    cases fuel with
    | zero => simp at enough
    | succ fuel =>
      obtain ⟨x,found,following⟩ := of_map link
      by_cases hit : p x
      · simp [scan,found,hit,testAt]
      · simpa [scan,found,hit,testAt,following] using ih (by simpa using enough)
/-- The scan that keeps the previous cell splits the chain at the first hit. -/
theorem scanPrev_eq {l : List Nat} (chain : Chain (linkOf h next) start l) (enough : l.length ≤ fuel) (prev : Option Nat) :
    scanPrev h next p fuel prev start =
      some ((l.takeWhile (fun a => !testAt h p a)).getLast?.or prev,
        (l.dropWhile (fun a => !testAt h p a)).head?) := by
  induction chain generalizing fuel prev with
  | nil => cases fuel <;> simp [scanPrev]
  | @cons a q l link rest ih =>
    cases fuel with
    | zero => simp at enough
    | succ fuel =>
      obtain ⟨x,found,following⟩ := of_map link
      by_cases hit : p x
      · simp [scanPrev,found,hit,testAt]
      · have tested : testAt h p a = false := by simp [testAt,found,hit]
        simp only [scanPrev,found,bind_some,hit,following]
        rw [if_neg (by simp),ih (by simpa using enough)]
        simp [tested,getLast?_cons]
/-- A chain is never longer than the heap, so the heap's size is fuel enough. -/
theorem scan_find {l : List Nat} (chain : Chain (linkOf h next) start l) :
    scan h next p h.size start = some (l.find? (testAt h p)) := scan_eq chain (chain_length chain)
theorem scanPrev_split {l : List Nat} (chain : Chain (linkOf h next) start l)
    (prev : Option Nat) : scanPrev h next p h.size prev start =
      some ((l.takeWhile (fun a => !testAt h p a)).getLast?.or prev,
        (l.dropWhile (fun a => !testAt h p a)).head?) := scanPrev_eq chain (chain_length chain) prev
end
end TestEnvironment.Lib
