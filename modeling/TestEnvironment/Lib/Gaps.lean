import TestEnvironment.Lib.Names

/-!
Texts up to blanks: the symbols that are no blanks, each with whether there is a gap before
it, and the text in which one filler stands for every gap between two of them.
-/
namespace TestEnvironment.Lib
variable {α : Type} (blank : α → Bool) (filler : α)

/-- The symbols that are no blanks, each with whether blanks stand before it; `gap` says
    whether there are some before the text. -/
def marked : Bool → List α → List (Bool × α)
  | _, [] => []
  | gap, c :: s => if blank c then marked true s else (gap,c) :: marked false s
/-- One filler for every gap. -/
def filled (marks : List (Bool × α)) : List α := marks.flatMap fun mark => if mark.1 then [filler,mark.2] else [mark.2]
/-- The text without blanks at its ends and with one filler for the blanks between two symbols. -/
def squeeze (s : List α) : List α := (filled filler (marked blank true s)).tail

variable {blank filler}

theorem marked_blank {c : α} (is : blank c = true) (gap : Bool) (s : List α) : marked blank gap (c :: s) = marked blank true s := by
  rw [marked,if_pos is]
theorem marked_symbol {c : α} (other : blank c = false) (gap : Bool) (s : List α) :
    marked blank gap (c :: s) = (gap,c) :: marked blank false s := by
  rw [marked,if_neg (by simp [other])]
/-- The fillers are read back as the gaps they stand for. -/
theorem marked_filled (is : blank filler = true) (gap : Bool) (s : List α) :
    marked blank false (filled filler (marked blank gap s)) = marked blank gap s := by
  induction s generalizing gap with
  | nil => rfl
  | cons c s ih =>
    cases symbol : blank c with
    | true => rw [marked_blank symbol,ih]
    | false =>
      rw [marked_symbol symbol]
      cases gap with
      | true => exact (marked_blank is false _).trans ((marked_symbol symbol true _).trans (congrArg _ (ih false)))
      | false => exact (marked_symbol symbol false _).trans (congrArg _ (ih false))
/-- After a gap the first symbol, if any, is marked with it. -/
theorem marked_gap (s : List α) : marked blank true s = [] ∨ ∃ c rest, blank c = false ∧ marked blank true s = (true,c) :: marked blank false rest := by
  induction s with
  | nil => exact .inl rfl
  | cons c s ih => grind [marked_blank,marked_symbol]
theorem marked_squeeze (is : blank filler = true) (s : List α) : marked blank true (squeeze blank filler s) = marked blank true s := by
  rw [squeeze]
  rcases @marked_gap _ blank s with none | ⟨c,rest,symbol,first⟩
  · rw [none]; rfl
  · rw [first]
    exact (marked_symbol symbol true _).trans (congrArg _ (marked_filled is false rest))
/-- Texts are squeezed to the same text exactly if their symbols and the gaps between them are the same. -/
theorem squeeze_eq_iff (is : blank filler = true) {s t : List α} :
    squeeze blank filler s = squeeze blank filler t ↔ marked blank true s = marked blank true t := by
  constructor
  · intro same
    rw [← marked_squeeze is s,same,marked_squeeze is]
  · intro same
    rw [squeeze,same,squeeze]

section
variable {s : List α} {threads : List (List α)}

/-- A text is made of some pieces in their order, with blanks before, between and behind them. -/
def Threaded (blank : α → Bool) : List (List α) → List α → Prop
  | [], s => ∀ c ∈ s, blank c
  | piece :: threads, s => ∃ gap rest, s = gap ++ (piece ++ rest) ∧ (∀ c ∈ gap, blank c) ∧ Threaded blank threads rest

theorem Threaded.gap {gap : List α} (blanks : ∀ c ∈ gap, blank c) (threaded : Threaded blank threads s) : Threaded blank threads (gap ++ s) := by
  cases threads with
  | nil => exact List.forall_mem_append.mpr ⟨blanks,threaded⟩
  | cons piece threads =>
    obtain ⟨gap',rest,rfl,blanks',others⟩ := threaded
    exact ⟨gap ++ gap',rest,(append_assoc ..).symm,List.forall_mem_append.mpr ⟨blanks,blanks'⟩,others⟩
/-- The pieces have exactly the symbols that are no blanks, in their order. -/
theorem Threaded.symbols (threaded : Threaded blank threads s) : threads.flatten.filter (!blank ·) = s.filter (!blank ·) := by
  have none' : ∀ gap : List α, (∀ c ∈ gap, blank c) → gap.filter (!blank ·) = [] := fun gap blanks =>
    filter_eq_nil_iff.mpr fun c member => by simp [blanks c member]
  induction threads generalizing s with
  | nil => exact (none' s threaded).symm
  | cons piece threads ih =>
    obtain ⟨gap,rest,rfl,blanks,others⟩ := threaded
    rw [List.flatten_cons,filter_append,filter_append,filter_append,none' gap blanks,ih others,nil_append]

end

end TestEnvironment.Lib
