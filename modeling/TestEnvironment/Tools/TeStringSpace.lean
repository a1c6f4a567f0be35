import TestEnvironment.Tools.TeStringOps

/-!
When the operations on dynamic strings return: the program ends for want of memory, so an
operation returns where a buffer of four times the size it needs may be allocated.
-/
namespace TestEnvironment.Tools
open Lib

section
variable {α β : Type} {r : Except Stop α} {f : α → Except Stop β} {P : α → Prop} {Q : β → Prop} {ample : Prop}

/-- The call returns with the condition met; it ends the program only where memory is not ample. -/
def Succeeds (ample : Prop) (r : Except Stop α) (P : α → Prop) : Prop :=
  match r with
  | .ok a => P a
  | .error .fatal => ¬ ample
  | .error .fault => False

variable {R : α → Prop}

namespace Succeeds
theorem of_safe (safe : Safe r P) (lives : ample → r ≠ .error .fatal) : Succeeds ample r P := by
  cases r with
  | ok a => exact safe
  | error stop =>
    cases stop with
    | fatal => exact fun enough => lives enough rfl
    | fault => exact safe.elim
theorem returns (call : Succeeds ample r P) (enough : ample) : ∃ a, r = .ok a ∧ P a := by
  cases r with
  | ok a => exact ⟨a,rfl,call⟩
  | error stop =>
    cases stop with
    | fatal => exact absurd enough call
    | fault => exact call.elim
theorem lives (call : Succeeds ample r P) (enough : ample) : r ≠ .error .fatal := by
  obtain ⟨a,result,_⟩ := call.returns enough
  rw [result]
  nofun
theorem bind (first : Succeeds ample r P) (rest : ∀ a, P a → Succeeds ample (f a) Q) : Succeeds ample (r >>= f) Q := by
  cases r with
  | ok a => exact rest a first
  | error stop => cases stop <;> exact first
theorem mono (first : Succeeds ample r P) (implied : ∀ a, P a → R a) : Succeeds ample r R := by
  cases r with
  | ok a => exact implied a first
  | error stop => cases stop <;> exact first
theorem weaken {ample' : Prop} (first : Succeeds ample r P) (more : ample' → ample) : Succeeds ample' r P := by
  cases r with
  | ok a => exact first
  | error stop =>
    cases stop with
    | fatal => exact fun enough => first (more enough)
    | fault => exact first
end Succeeds
/-- What holds wherever the call returns. -/
def Leaves (r : Except Stop α) (P : α → Prop) : Prop := ∀ a, r = .ok a → P a

namespace Leaves
theorem bind (first : Leaves r P) (rest : ∀ a, P a → Leaves (f a) Q) : Leaves (r >>= f) Q := by
  intro b result
  cases same : r with
  | ok a =>
    rw [same] at result
    exact rest a (first a same) b result
  | error stop =>
    rw [same] at result
    cases result
theorem ok {a : α} (holds : P a) : Leaves (.ok a) P := by
  rintro _ ⟨⟩
  exact holds
theorem error {stop : Stop} : Leaves (.error stop) P := nofun
end Leaves
theorem Succeeds.and (call : Succeeds ample r P) (leaves : Leaves r R) : Succeeds ample r fun a => P a ∧ R a := by
  cases r with
  | ok a => exact ⟨call,leaves a rfl⟩
  | error stop => cases stop <;> exact call
theorem bind_lives (first : r ≠ .error .fatal) (rest : ∀ a, r = .ok a → f a ≠ .error .fatal) : (r >>= f) ≠ .error .fatal := by
  cases r with
  | ok a => exact rest a rfl
  | error stop =>
    rintro ⟨⟩
    exact first rfl
end

section
variable {page : Page} {str : TeString} {content text : CStr} {size n : Nat} {buf : Source} {P : TeString → Prop}

/-- Whatever a string grows to for `n` characters may be allocated. -/
def Ample (n : Nat) : Prop := 4*n+malloc_header_size ≤ PTRDIFF_MAX

theorem Ample.mono {m : Nat} (ample : Ample n) (less : m ≤ n) : Ample m := by
  rw [Ample] at ample ⊢
  omega
/-- A string without buffer has no reserve, as `TE_STRING_INIT` makes it. -/
def Fresh (str : TeString) : Prop := str.ptr = none → str.size = 0

theorem HoldsText.fresh (holds : HoldsText str content) (some' : content ≠ []) : Fresh str := by
  intro ptr
  obtain ⟨cells,own,_⟩ := (holds.of_some some').cells
  cases ptr.symm.trans own
theorem growLoop_le {str_size grow grow_factor : Nat} (within : grow_factor*str_size ≤ size) (range : 2*size < SIZE_MOD) :
    growLoop str_size size grow grow_factor ≤ 2*size := by
  induction grow generalizing grow_factor with
  | zero => rw [growLoop]; omega
  | succ grow ih =>
    have doubled : grow_factor*TE_STRING_GROW_FACTOR*str_size = 2*(grow_factor*str_size) := by
      rw [TE_STRING_GROW_FACTOR,Nat.mul_comm grow_factor 2,Nat.mul_assoc]
    have whole : grow_factor*TE_STRING_GROW_FACTOR*str_size%SIZE_MOD = 2*(grow_factor*str_size) := by
      rw [doubled,mod_eq_of_lt (by omega)]
    rw [growLoop,whole]
    split_ifs with larger
    · omega
    · exact ih (by omega)
theorem realloc_lives (small : size ≤ PTRDIFF_MAX) : str.realloc size ≠ .error .fatal := by
  rw [TeString.realloc,if_neg (by omega)]
  simp
theorem reserve_lives (ample : Ample size) : te_string_reserve page str size ≠ .error .fatal := by
  have numbers : PTRDIFF_MAX*2 < SIZE_MOD ∧ malloc_header_size = 32 := by decide
  rw [Ample] at ample
  rw [te_string_reserve]
  split_ifs with room
  · simp
  · grind [growLoop_le,realloc_lives,SIZE_MOD]
theorem allocFirst_lives (fresh : Fresh str) : allocFirst str ≠ .error .fatal := by
  rw [allocFirst]
  cases ptr : str.ptr with
  | some cells => simp
  | none =>
    have made := @realloc_lives str TE_STRING_INIT_LEN (by decide)
    have size : (if str.size ≠ 0 then str.size else TE_STRING_INIT_LEN) = TE_STRING_INIT_LEN := by rw [fresh ptr]; rfl
    show (str.realloc _ >>= fun s => .ok {s with len := 0}) ≠ _
    rw [size]
    exact bind_lives made fun s _ => by simp
theorem write_lives (off : Nat) : str.write off text ≠ .error .fatal := by
  rw [TeString.write]
  split
  · split_ifs <;> simp
  · split_ifs <;> simp
variable {off seg_start seg_len : Nat}

theorem write_succeeds (written : Safe (str.write off text) fun s => P s) : Succeeds True (str.write off text) P :=
  .of_safe written fun _ => write_lives off
theorem printFirst_lives (heap : Heap str content) (len : str.len = content.length) (room : str.len < str.size)
    (ample : Ample (content.length+text.length+1)) : printFirst page str text ≠ .error .fatal := by
  have numbers : PTRDIFF_MAX < SIZE_MOD := by decide
  rw [printFirst]
  by_cases cut : str.size-str.len ≤ text.length
  · have written := @Heap.extend _ _ (text.take (str.size-str.len-1) ++ ['\x00']) _ heap len (by
      simp only [length_append,length_take,length_singleton]
      omega)
    rw [if_pos cut]
    refine ((write_succeeds written).bind (Q := fun _ => True) fun s done => ?_).lives trivial
    obtain ⟨heap1,len1,_⟩ := done
    have size : (s.len+text.length+1)%SIZE_MOD = content.length+text.length+1 := by
      rw [Ample] at ample
      rw [len1,len,mod_eq_of_lt (by omega)]
    rw [size]
    have reserved := @reserve_heap page s _ (content.length+text.length+1) heap1 (by rw [Ample] at ample; omega)
    exact (Succeeds.of_safe reserved fun _ => reserve_lives ample).mono fun _ _ => trivial
  · rw [if_neg cut]
    simp
theorem append_lives (printable : Printable str content) (fresh : Fresh str) (short : text.length ≤ INT_MAX)
    (ample : Ample (content.length+text.length+1)) : te_string_append page str text ≠ .error .fatal := by
  have first := Succeeds.of_safe (allocFirst_room printable) fun _ : True => allocFirst_lives fresh
  refine (first.bind (Q := fun _ => True) fun s ⟨heap,len,room⟩ => ?_).lives trivial
  rw [if_neg (not_not_intro room),if_neg (by omega)]
  have printed := Succeeds.of_safe (@printFirst_room page _ _ _ heap len room short) fun _ : True => printFirst_lives heap len room ample
  refine printed.bind fun s1 ⟨heap1,len1,enough⟩ => ?_
  refine (write_succeeds (@Heap.extend _ _ (text ++ ['\x00']) _ heap1 len1 ?_)).bind fun _ _ => trivial
  simp only [length_append,length_singleton]
  omega
/-- Formatted text is appended, unless it is too long for `vsnprintf` or there is no memory for it. -/
theorem append_succeeds (printable : Printable str content) (fresh : Fresh str) :
    Succeeds (Ample (content.length+text.length+1) ∧ text.length ≤ INT_MAX) (te_string_append page str text) fun s => HoldsText s (content ++ text) :=
  .of_safe (append_holds printable) fun ⟨ample,short⟩ => append_lives printable fresh short ample
/-- A new string has a buffer, even for no text. -/
theorem append_value (plain : '\x00' ∉ text) :
    Succeeds (Ample (text.length+1) ∧ text.length ≤ INT_MAX) (te_string_append page (TE_STRING_INIT_RESERVE 0) text) fun s => s.value = .ok text := by
  have new : Printable (TE_STRING_INIT_RESERVE 0) [] := .null rfl rfl rfl
  refine .of_safe ((append_heap new).mono fun s ⟨heap,_⟩ => ?_) fun ⟨ample,short⟩ => append_lives new (fun _ => rfl) short ?_
  · exact heap.value (prefix_refl _) plain
  · rwa [length_nil,Nat.zero_add]
/-- No object in memory is larger than `PTRDIFF_MAX`, so that the sizes do not wrap around. -/
theorem append_buf_succeeds (holds : HoldsText str content) (fresh : Fresh str) (object : buf.length ≤ PTRDIFF_MAX) :
    Succeeds (Ample (content.length+buf.length+1)) (te_string_append_buf page str buf) fun s => HoldsText s (content ++ buf.text) := by
  have range : content.length+buf.length+1 < SIZE_MOD := by
    have small := holds.small
    have numbers : PTRDIFF_MAX+PTRDIFF_MAX+1 < SIZE_MOD := by decide
    omega
  have reaches : Reaches str (content.length+buf.length+1) := ⟨range,fun ptr => by rw [fresh ptr]; omega⟩
  refine .of_safe (append_buf_holds holds fun _ => reaches) fun ample => ?_
  rw [te_string_append_buf]
  split_ifs with empty
  · simp
  · rw [holds.len,mod_eq_of_lt range]
    have reserved := Succeeds.of_safe (@reserve_room page _ _ _ holds reaches) fun _ : True => reserve_lives ample
    refine (reserved.bind (Q := fun _ => True) fun s done => ?_).lives trivial
    obtain ⟨heap,len,room⟩ := done
    refine (write_succeeds (@Heap.extend _ _ buf.text _ heap len (by rw [buf.text_length]; omega))).bind fun s1 done => ?_
    obtain ⟨heap1,len1,size1⟩ := done
    have heap2 : Heap {s1 with len := s1.len+buf.length} (content ++ buf.text) := heap1.of_ptr rfl rfl
    have length : s1.len+buf.length = (content ++ buf.text).length := by simp_all
    exact (write_succeeds (@Heap.extend _ _ ['\x00'] (s1.len+buf.length) heap2 length (show s1.len+buf.length+1 ≤ s1.size by omega))).mono
      fun _ _ => trivial
theorem move_lives (dst src n : Nat) : str.move dst src n ≠ .error .fatal := by
  rw [TeString.move]
  split
  · split_ifs <;> simp
  · split_ifs <;> simp
theorem replaceSegment_lives (room : (str.len+buf.length+1-seg_len)%SIZE_MOD ≤ str.size) :
    replaceSegment page str seg_start seg_len buf ≠ .error .fatal := by
  rw [replaceSegment,te_string_reserve,if_pos room]
  refine bind_lives (by simp) fun s _ => bind_lives (move_lives _ _ _) fun s _ => bind_lives (write_lives _) fun s _ => ?_
  simp
/-- Nothing is allocated when the beginning of a string is removed. -/
theorem cut_beginning_succeeds (len : Nat) (holds : HoldsText str content) :
    Succeeds True (te_string_cut_beginning page str len) fun s => HoldsText s (content.drop len) := by
  refine .of_safe (cut_beginning_holds len holds) fun _ => ?_
  have length := holds.len
  rw [te_string_cut_beginning,te_string_replace_buf,if_neg (show (0 : Nat) ≠ SIZE_MAX by decide)]
  by_cases empty : str.len ≤ 0
  · have nothing : (Source.zeros (0-str.len)).length = 0 := Nat.zero_sub _
    rw [if_pos empty,te_string_append_buf,if_pos nothing]
    show te_string_append_buf page str (.zeros 0) ≠ _
    rw [te_string_append_buf,if_pos (show (Source.zeros 0).length = 0 from rfl)]
    simp
  · rw [if_neg empty]
    have inside := (holds.of_some (by rintro rfl; exact empty (by rw [length]; exact le_rfl))).inside
    rw [length_append,length_singleton] at inside
    refine replaceSegment_lives (le_trans (Nat.mod_le _ _) ?_)
    have none : (Source.zeros 0).length = 0 := rfl
    omega

section
variable (fresh : Fresh str)
include fresh
theorem write_fresh : Leaves (str.write off text) Fresh := by
  rw [TeString.write]
  split
  · split_ifs
    · exact .ok fresh
    · exact .error
  · split_ifs
    · exact .ok (by simp [Fresh])
    · exact .error
theorem move_fresh {dst src len : Nat} : Leaves (str.move dst src len) Fresh := by
  rw [TeString.move]
  split
  · split_ifs
    · exact .ok fresh
    · exact .error
  · split_ifs
    · exact .ok (by simp [Fresh])
    · exact .error
theorem reserve_fresh : Leaves (te_string_reserve page str size) Fresh := by
  rw [te_string_reserve]
  split_ifs with room
  · exact .ok fresh
  · intro s result
    simp only [TeString.realloc] at result
    split_ifs at result
    all_goals
      obtain rfl := ok.inj result
      exact fun ptr => by cases ptr
theorem append_buf_fresh : Leaves (te_string_append_buf page str buf) Fresh := by
  rw [te_string_append_buf]
  split_ifs
  · exact .ok fresh
  · exact (reserve_fresh fresh).bind fun s fresh => (write_fresh fresh).bind fun s fresh => @write_fresh {s with len := s.len+buf.length} _ _ fresh
theorem replaceSegment_fresh : Leaves (replaceSegment page str seg_start seg_len buf) Fresh :=
  (reserve_fresh fresh).bind fun _ fresh => (move_fresh fresh).bind fun _ fresh => (write_fresh fresh).bind fun _ fresh => .ok fresh
end
theorem cut_beginning_fresh (len : Nat) (fresh : Fresh str) : Leaves (te_string_cut_beginning page str len) Fresh := by
  rw [te_string_cut_beginning,te_string_replace_buf]
  simp only
  generalize (if (0 : Nat) = SIZE_MAX then _ else _ : Nat) = seg_start
  by_cases behind : str.len ≤ seg_start
  · rw [if_pos behind]
    exact (append_buf_fresh fresh).bind fun _ fresh => append_buf_fresh fresh
  · rw [if_neg behind]
    exact replaceSegment_fresh fresh
end
end TestEnvironment.Tools
