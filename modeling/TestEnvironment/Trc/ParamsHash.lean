import TestEnvironment.Trc.Normspace

/-!
The hash of the arguments of an iteration as the Tester (`run.c`) and TRC (`db_walker.c`) compute it: the bytes that the hash function is given,
and the offset in the debugging buffer.
-/
namespace TestEnvironment.Trc
open Lib

section

/-- The same loop as that of `trc_db_test_params_normalise`. -/
def test_params_normalise (param : CStr) : CStr := trc_db_test_params_normalise param
/-- The size of the debugging buffer. -/
def BUF_SIZE : Nat := 8192
/-- The loop over the sorted arguments: the bytes for the hash, and the offsets before each argument and behind the last; `cut` is what is done
    with the offset after `snprintf`, which returns the length of the whole text. -/
def hashLoop (normalise : CStr → CStr) (cut : Nat → Nat) : Nat → Nat → List TrcReportArgument → CStr × List Nat
  | _,len,[] => ([],[len])
  | i,len,a :: sorted =>
    let text := (if i ≠ 0 then [' '] else []) ++ (a.name ++ ' ' :: normalise a.value)
    let (bytes,offsets) := hashLoop normalise cut (i+1) (cut (len+text.length)) sorted
    (text ++ bytes,len :: offsets)
def test_params_hash (args : List TrcReportArgument) : CStr × List Nat :=
  hashLoop test_params_normalise (fun len => if BUF_SIZE ≤ len then BUF_SIZE else len) 0 0 (sortTurns args.length args)
def trc_db_test_params_hash (args : List TrcReportArgument) : CStr × List Nat :=
  hashLoop trc_db_test_params_normalise id 0 0 (sortTurns args.length args)
end

section
variable {normalise : CStr → CStr} {cut : Nat → Nat} {i len : Nat} {args : List TrcReportArgument} {s : CStr} {pending : Bool}

theorem squeeze_again : squeeze false (squeeze pending s) = squeeze pending s := by
  induction s generalizing pending with
  | nil => rfl
  | cons c s ih =>
    have blank : isspace ' ' = true := by decide
    by_cases space : isspace c = true
    · simpa [squeeze,space] using ih
    · cases pending <;> simp [squeeze,space,blank,@ih false]
/-- The normal form of a value is its own normal form. -/
theorem normalise_again : trc_db_test_params_normalise (trc_db_test_params_normalise s) = trc_db_test_params_normalise s := by
  have whole : (squeeze false (s.dropWhile isspace)).dropWhile isspace = squeeze false (s.dropWhile isspace) := by
    cases word : s.dropWhile isspace with
    | nil => rfl
    | cons c rest =>
      have visible := List.head?_dropWhile_not isspace s
      simp only [word,head?_cons] at visible
      simp [squeeze,visible]
  rw [normalise_squeeze,normalise_squeeze,whole,squeeze_again]

/-- The room that an argument takes behind others. -/
def room (a : TrcReportArgument) : Nat := a.name.length+(trc_db_test_params_normalise a.value).length+2

theorem hashLoop_bytes : (hashLoop normalise cut (i+1) len args).1 = (args.map fun a => ' ' :: (a.name ++ ' ' :: normalise a.value)).flatten := by
  induction args generalizing i len with
  | nil => rfl
  | cons a args ih => simp [hashLoop,ih]
/-- The bytes do not depend on the offsets. -/
theorem hash_bytes : (hashLoop trc_db_test_params_normalise cut 0 len (sortTurns args.length args)).1 = hashText args := by
  rw [hashText]
  cases sortTurns args.length args with
  | nil => rfl
  | cons a sorted =>
    simp only [hashLoop,hashLoop_bytes]
    induction sorted generalizing a with
    | nil => simp
    | cons b sorted ih =>
      have later := ih b
      simp at later
      simp [List.intercalate_cons_cons,← later]
theorem offsets_cut (inside : len ≤ BUF_SIZE) :
    ∀ o ∈ (hashLoop normalise (fun len => if BUF_SIZE ≤ len then BUF_SIZE else len) i len args).2, o ≤ BUF_SIZE := by
  induction args generalizing i len with
  | nil => exact forall_mem_singleton.mpr inside
  | cons a args ih =>
    refine forall_mem_cons.mpr ⟨inside,ih ?_⟩
    dsimp only
    split_ifs <;> omega
theorem offsets_later : (∀ o ∈ (hashLoop trc_db_test_params_normalise id (i+1) len args).2, o ≤ BUF_SIZE) ↔ len+(args.map room).sum ≤ BUF_SIZE := by
  induction args generalizing i len with
  | nil => simp [hashLoop]
  | cons a args ih =>
    simp only [hashLoop,forall_mem_cons,ih,map_cons,sum_cons]
    simp [room]
    omega
theorem offsets_inside : (∀ o ∈ (trc_db_test_params_hash args).2, o ≤ BUF_SIZE) ↔ (args.map room).sum ≤ BUF_SIZE+1 := by
  rw [trc_db_test_params_hash,← ((sortTurns_spec (le_refl args.length)).1.map room).sum_nat]
  cases sortTurns args.length args with
  | nil => simp [hashLoop]
  | cons a sorted =>
    simp only [hashLoop,forall_mem_cons,offsets_later,map_cons,sum_cons]
    simp [room]
    omega

/-- Both programs give the hash function the same bytes in any order, normal forms stay as they are, and no offset is behind the buffer. -/
structure HashesAgree (args : List TrcReportArgument) : Prop where
  same : ∀ order, order.Perm args →
    (test_params_hash order).1 = (trc_db_test_params_hash args).1 ∧ (trc_db_test_params_hash order).1 = (trc_db_test_params_hash args).1
  normal : ∀ value, test_params_normalise (test_params_normalise value) = test_params_normalise value ∧
    trc_db_test_params_normalise (trc_db_test_params_normalise value) = trc_db_test_params_normalise value
  inside : ∀ order, order.Perm args → ∀ o ∈ (test_params_hash order).2 ++ (trc_db_test_params_hash order).2, o ≤ BUF_SIZE

theorem hashes_agree_iff (different : (args.map TrcReportArgument.name).Nodup) : HashesAgree args ↔ (args.map room).sum ≤ BUF_SIZE+1 := by
  constructor
  · intro agree
    exact offsets_inside.mp fun o there => agree.inside args (.refl _) o (mem_append_right _ there)
  · intro short
    refine ⟨fun order perm => ?_,fun value => ⟨normalise_again,normalise_again⟩,fun order perm o there => ?_⟩
    · have text : hashText order = hashText args := hashText_congr (perm.map _) ((perm.map TrcReportArgument.name).symm.nodup different)
      exact ⟨hash_bytes.trans (text.trans hash_bytes.symm),hash_bytes.trans (text.trans hash_bytes.symm)⟩
    · obtain tester | trc := mem_append.mp there
      · exact offsets_cut (Nat.zero_le _) o tester
      · exact offsets_inside.mpr ((perm.map room).sum_nat.trans_le short) o trc
theorem hashes_agree_iff_two : HashesAgree [⟨['b'],['x',' ',' ','y'],false⟩,⟨['a'],['1'],false⟩] :=
  (hashes_agree_iff (by decide)).mpr (by decide)
/-- A name of the size of the buffer. -/
theorem offset_behind : ¬ ∀ args : List TrcReportArgument, (args.map TrcReportArgument.name).Nodup → HashesAgree args := by
  intro claim
  obtain ⟨name,long⟩ : ∃ name : CStr, name.length = BUF_SIZE := ⟨replicate BUF_SIZE 'a',length_replicate⟩
  have different : ([⟨name,[],false⟩] : List TrcReportArgument).map TrcReportArgument.name |>.Nodup := List.nodup_singleton _
  have small := (hashes_agree_iff different).mp (claim _ different)
  rw [map_cons,sum_cons,room,long] at small
  omega
end
end TestEnvironment.Trc
