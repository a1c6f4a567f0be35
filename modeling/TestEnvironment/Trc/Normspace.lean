import TestEnvironment.Trc.Database
import TestEnvironment.Trc.ResultOrder

/-!
Values of arguments up to white space (`db_walker.c`): the comparison that skips white space in both strings, the normal form, and the text of
which the hash of arguments is computed.
-/
namespace TestEnvironment.Trc
open Lib Tools

section

/-- A character as an `int`; the end of a string is 0. -/
def firstChar (s : CStr) : Int := match s with
  | [] => 0
  | c :: _ => c.toNat
/-- The loop of `trc_db_strcmp_normspace` and what follows it; every turn passes a character of the first string. -/
def normspaceLoop : Nat → CStr → CStr → Int
  | turns+1,c1 :: s1,c2 :: s2 =>
    if isspace c1 then
      if ¬isspace c2 then (' '.toNat : Int)-c2.toNat else normspaceLoop turns (s1.dropWhile isspace) (s2.dropWhile isspace)
    else if c1 ≠ c2 then (c1.toNat : Int)-c2.toNat
    else normspaceLoop turns s1 s2
  | _,s1,s2 => firstChar (s1.dropWhile isspace)-firstChar (s2.dropWhile isspace)
def trc_db_strcmp_normspace (s1 s2 : CStr) : Int := normspaceLoop s1.length (s1.dropWhile isspace) (s2.dropWhile isspace)
/-- The loop of `trc_db_test_params_normalise`: what is written, and whether spaces are skipped at the end. -/
def normaliseLoop : Bool → CStr → CStr × Bool
  | skip_spaces,[] => ([],skip_spaces)
  | skip_spaces,c :: p =>
    if isspace c then
      if ¬skip_spaces then ((' ' :: (normaliseLoop true p).1),(normaliseLoop true p).2) else normaliseLoop true p
    else (c :: (normaliseLoop false p).1,(normaliseLoop false p).2)
/-- The last character is taken away again if spaces are skipped behind it. -/
def trc_db_test_params_normalise (param : CStr) : CStr :=
  let (str,skip_spaces) := normaliseLoop true param
  if str ≠ [] ∧ skip_spaces then str.dropLast else str
/-- The inner loop of the sort: the least argument gets to the front by exchanges. -/
def sortTurn (first : TrcReportArgument) : List TrcReportArgument → TrcReportArgument × List TrcReportArgument
  | [] => (first,[])
  | a :: args =>
    if 0 < strcmp first.name a.name then ((sortTurn a args).1,first :: (sortTurn a args).2)
    else ((sortTurn first args).1,a :: (sortTurn first args).2)
def sortTurns : Nat → List TrcReportArgument → List TrcReportArgument
  | turns+1,first :: args => (sortTurn first args).1 :: sortTurns turns (sortTurn first args).2
  | _,args => args
/-- What `trc_db_test_params_hash` gives to the hash function. -/
def hashText (args : List TrcReportArgument) : CStr :=
  [' '].intercalate ((sortTurns args.length args).map fun a => a.name ++ ' ' :: trc_db_test_params_normalise a.value)
end

section
variable {s t : CStr} {c : Char} {turns : Nat} {pending : Bool}

/-- Runs of white space as one blank, and none at the end; white space may be pending. -/
def squeeze : Bool → CStr → CStr
  | _,[] => []
  | pending,c :: s => if isspace c then squeeze true s else if pending then ' ' :: c :: squeeze false s else c :: squeeze false s

/-- A blank in front of a text that is not empty. -/
def lead : CStr → CStr
  | [] => []
  | c :: s => ' ' :: c :: s
@[simp] theorem lead_inj : lead s = lead t ↔ s = t := by cases s <;> cases t <;> simp [lead]
@[simp] theorem lead_lt : lead s < lead t ↔ s < t := by cases s <;> cases t <;> simp [lead]
@[simp] theorem lead_nil : lead s = [] ↔ s = [] := by cases s <;> simp [lead]
theorem lead_cons : lead s = ' ' :: t ↔ s = t ∧ s ≠ [] := by cases s <;> simp [lead]
theorem lead_other (other : c ≠ ' ') : lead s ≠ c :: t := by cases s <;> simp [lead,other.symm]
theorem squeeze_lead : squeeze true s = lead (squeeze false (s.dropWhile isspace)) := by
  induction s with
  | nil => rfl
  | cons c s ih =>
    by_cases space : isspace c = true
    · rw [squeeze,if_pos space,ih,dropWhile_cons_of_pos space]
    · simp [squeeze,space,lead]
theorem squeeze_cons : squeeze false (c :: s) = if isspace c then lead (squeeze false (s.dropWhile isspace)) else c :: squeeze false s := by
  rw [squeeze,squeeze_lead]
  rfl
theorem squeeze_nil : squeeze pending s = [] ↔ s.dropWhile isspace = [] := by
  induction s generalizing pending with
  | nil => simp [squeeze]
  | cons c s ih =>
    by_cases space : isspace c = true
    · rw [squeeze,if_pos space,ih,dropWhile_cons_of_pos space]
    · cases pending <;> simp [squeeze,space]
/-- Without the blank at its end the normal form is what is squeezed, behind the blank that is pending. -/
theorem normaliseLoop_squeeze : match normaliseLoop pending s with
    | (str,true) => str = [] ∧ pending = true ∧ squeeze pending s = [] ∨
      ∃ front, str = front ++ [' '] ∧ squeeze pending s = if pending then ' ' :: front else front
    | (str,false) => squeeze pending s = if pending then ' ' :: str else str := by
  induction s generalizing pending with
  | nil => cases pending <;> simp [normaliseLoop,squeeze]
  | cons c s ih =>
    by_cases space : isspace c = true
    · have later := @ih true
      cases pending with
      | true => simpa only [normaliseLoop,squeeze,space,if_true,not_true_eq_false,if_false] using later
      | false =>
        simp only [normaliseLoop,squeeze,space,if_true,false_eq_true,not_false_eq_true]
        generalize normaliseLoop true s = r at later
        obtain ⟨str,skip⟩ := r
        cases skip with
        | false => exact later
        | true =>
          obtain ⟨rfl,-,empty⟩ | ⟨front,rfl,there⟩ := later
          · exact .inr ⟨[],rfl,empty⟩
          · exact .inr ⟨' ' :: front,rfl,there⟩
    · have later := @ih false
      simp only [normaliseLoop,squeeze,space,false_eq_true,if_false]
      generalize normaliseLoop false s = r at later
      obtain ⟨str,skip⟩ := r
      cases skip with
      | false =>
        simp only [false_eq_true,if_false] at later
        simp only [later]
      | true =>
        obtain ⟨-,other,-⟩ | ⟨front,rfl,there⟩ := later
        · cases other
        · simp only [false_eq_true,if_false] at there
          exact .inr ⟨c :: front,rfl,by rw [there]⟩
theorem normalise_squeeze : trc_db_test_params_normalise s = squeeze false (s.dropWhile isspace) := by
  have squeezed := @normaliseLoop_squeeze s true
  rw [squeeze_lead] at squeezed
  rw [trc_db_test_params_normalise]
  generalize normaliseLoop true s = r at squeezed
  obtain ⟨str,skip⟩ := r
  cases skip with
  | false => simpa using (lead_cons.mp squeezed).1.symm
  | true =>
    obtain ⟨rfl,-,empty⟩ | ⟨front,rfl,there⟩ := squeezed
    · simpa using (lead_nil.mp empty).symm
    · simpa using (lead_cons.mp there).1.symm

/-- A string of ASCII characters, none of them null. -/
def Ascii (s : CStr) : Prop := ∀ c ∈ s, 0 < c.toNat ∧ c.toNat < 128
/-- Blanks and visible characters only. -/
def Printable (s : CStr) : Prop := ∀ c ∈ s, 32 ≤ c.toNat ∧ c.toNat < 127

theorem char_zero {c d : Char} : (c.toNat : Int)-d.toNat = 0 ↔ c = d := by
  rw [Int.sub_eq_zero,Int.natCast_inj]
  exact Char.toNat_inj
theorem first_zero (text : ∀ c ∈ s, 0 < c.toNat) : firstChar (s.dropWhile isspace) = 0 ↔ squeeze false s = [] := by
  rw [squeeze_nil]
  cases behind : s.dropWhile isspace with
  | nil => exact iff_of_true rfl rfl
  | cons c rest =>
    have positive := text c ((dropWhile_sublist _).mem (by rw [behind]; exact mem_cons_self))
    refine iff_of_false ?_ (cons_ne_nil _ _)
    rw [firstChar]
    omega
theorem first_nonneg : 0 ≤ firstChar s := by
  cases s with
  | nil => exact le_rfl
  | cons c s => exact Int.natCast_nonneg _
theorem loop_nil_left : normspaceLoop turns [] t = -firstChar (t.dropWhile isspace) := by
  cases turns <;> simp [normspaceLoop,firstChar]
theorem loop_nil_right : normspaceLoop turns s [] = firstChar (s.dropWhile isspace) := by
  cases turns <;> cases s <;> simp [normspaceLoop,firstChar]
theorem Ascii.skip (ascii : Ascii s) : Ascii (s.dropWhile isspace) := fun c there => ascii c ((dropWhile_sublist _).mem there)
theorem Printable.skip (printable : Printable s) : Printable (s.dropWhile isspace) := fun c there => printable c ((dropWhile_sublist _).mem there)
theorem Printable.ascii (printable : Printable s) : Ascii s := fun c there => ⟨by have := printable c there; omega,by have := printable c there; omega⟩
theorem length_skip : (s.dropWhile isspace).length ≤ s.length := (dropWhile_sublist _).length_le

/-- White space that is blanks only. -/
def Blanks (s : CStr) : Prop := ∀ c ∈ s, isspace c = true → c = ' '
theorem Blanks.skip (blanks : Blanks s) : Blanks (s.dropWhile isspace) := fun c there => blanks c ((dropWhile_sublist _).mem there)
/-- The result turns with the strings. -/
theorem loop_turned {turns' : Nat} (enough : s.length ≤ turns) (enough' : t.length ≤ turns') (blanks : Blanks s) (blanks' : Blanks t) :
    normspaceLoop turns s t = -normspaceLoop turns' t s := by
  induction turns generalizing s t turns' with
  | zero =>
    obtain rfl := length_eq_zero_iff.mp (le_zero.mp enough)
    rw [loop_nil_left,loop_nil_right]
  | succ turns ih =>
    cases s with
    | nil => rw [loop_nil_left,loop_nil_right]
    | cons c s =>
      cases t with
      | nil => rw [loop_nil_left,loop_nil_right,Int.neg_neg]
      | cons d t =>
        cases turns' with
        | zero => cases enough'
        | succ turns' =>
          rw [length_cons] at enough enough'
          have rest : Blanks s := fun x there => blanks x (mem_cons_of_mem _ there)
          have rest' : Blanks t := fun x there => blanks' x (mem_cons_of_mem _ there)
          have behind := @ih _ _ turns' (length_skip.trans (by omega)) (length_skip.trans (by omega)) rest.skip rest'.skip
          have later := @ih _ _ turns' (by omega) (by omega) rest rest'
          have space_c := blanks c mem_cons_self
          have space_d := blanks' d mem_cons_self
          rw [normspaceLoop,normspaceLoop]
          by_cases space : isspace c = true <;> by_cases space' : isspace d = true
          · simp [space,space',behind]
          · have differ : d ≠ c := fun same => space' (same ▸ space)
            obtain rfl := space_c space
            simp [space,space',differ] <;> omega
          · have differ : c ≠ d := fun same => space (same ▸ space')
            obtain rfl := space_d space'
            simp [space,space',differ] <;> omega
          · by_cases same : c = d
            · simp [space',same,later]
            · simp [space,space',same,Ne.symm same] <;> omega
/-- The comparison tells no difference just if the same is squeezed. -/
theorem loop_zero (enough : s.length ≤ turns) (ascii : Ascii s) (ascii' : Ascii t) : normspaceLoop turns s t = 0 ↔ squeeze false s = squeeze false t := by
  induction turns generalizing s t with
  | zero =>
    obtain rfl := length_eq_zero_iff.mp (le_zero.mp enough)
    rw [loop_nil_left,Int.neg_eq_zero,first_zero fun c there => (ascii' c there).1]
    exact eq_comm
  | succ turns ih =>
    cases s with
    | nil =>
      rw [loop_nil_left,Int.neg_eq_zero,first_zero fun c there => (ascii' c there).1]
      exact eq_comm
    | cons c s =>
      cases t with
      | nil => rw [loop_nil_right,first_zero fun c there => (ascii c there).1]; rfl
      | cons d t =>
        rw [length_cons] at enough
        have rest : Ascii s := fun x there => ascii x (mem_cons_of_mem _ there)
        have rest' : Ascii t := fun x there => ascii' x (mem_cons_of_mem _ there)
        rw [normspaceLoop,squeeze_cons,squeeze_cons]
        by_cases space : isspace c = true <;> by_cases space' : isspace d = true
        · rw [if_pos space,if_neg (not_not.mpr space'),if_pos space,if_pos space',lead_inj]
          exact ih (length_skip.trans (by omega)) rest.skip rest'.skip
        · have other : d ≠ ' ' := fun same => space' (by rw [same]; rfl)
          rw [if_pos space,if_pos space',if_pos space,if_neg space',char_zero]
          exact iff_of_false other.symm (lead_other other)
        · have differ : c ≠ d := fun same => space (same ▸ space')
          have other : c ≠ ' ' := fun same => space (by rw [same]; rfl)
          rw [if_neg space,if_pos differ,if_neg space,if_pos space',char_zero]
          exact iff_of_false differ (lead_other other).symm
        · rw [if_neg space,if_neg space,if_neg space']
          by_cases same : c = d
          · rw [if_neg (not_not.mpr same),ih (by omega) rest rest',same,List.cons_inj_right]
          · rw [if_pos same,char_zero]
            exact iff_of_false same fun equal => same (cons.inj equal).1
theorem char_less {c d : Char} : (c.toNat : Int)-d.toNat < 0 ↔ c < d := by
  rw [Char.lt_def,UInt32.lt_iff_toNat_lt]
  show (c.val.toNat : Int)-d.val.toNat < 0 ↔ _
  omega
/-- For strings of blanks and visible characters the sign is that of the normal forms. -/
theorem loop_less (enough : s.length ≤ turns) (printable : Printable s) (printable' : Printable t) :
    normspaceLoop turns s t < 0 ↔ squeeze false s < squeeze false t := by
  induction turns generalizing s t with
  | zero => exact nil_case (length_eq_zero_iff.mp (le_zero.mp enough)) printable'
  | succ turns ih =>
    cases s with
    | nil => exact nil_case rfl printable'
    | cons c s =>
      cases t with
      | nil =>
        rw [loop_nil_right]
        exact iff_of_false (not_lt.mpr first_nonneg) (List.not_lt_nil _)
      | cons d t =>
        rw [length_cons] at enough
        have rest : Printable s := fun x there => printable x (mem_cons_of_mem _ there)
        have rest' : Printable t := fun x there => printable' x (mem_cons_of_mem _ there)
        have blank : ∀ x, 32 ≤ x.toNat → x.toNat < 127 → (isspace x = true ↔ x = ' ') := by
          intro x low high
          simp [isspace]
          omega
        obtain ⟨low,high⟩ := printable c mem_cons_self
        obtain ⟨low',high'⟩ := printable' d mem_cons_self
        simp only [normspaceLoop,squeeze_cons,blank c low high,blank d low' high']
        have above : ∀ x : Char, 32 ≤ x.toNat → x ≠ ' ' → ' ' < x := by
          intro x low other
          have apart : x.toNat ≠ 32 := fun same => other (Char.toNat_inj.mp same)
          rw [← char_less]
          have blank_number : ' '.toNat = 32 := rfl
          omega
        by_cases space : c = ' ' <;> by_cases space' : d = ' '
        · rw [if_pos space,if_neg (not_not.mpr space'),if_pos space,if_pos space',lead_lt]
          exact ih (length_skip.trans (by omega)) rest.skip rest'.skip
        · rw [if_pos space,if_pos space',if_pos space,if_neg space',char_less]
          exact iff_of_true (above d low' space') (lead_less (above d low' space'))
        · have differ : c ≠ d := fun same => space (same.trans space')
          rw [if_neg space,if_pos differ,if_neg space,if_pos space',char_less]
          refine iff_of_false (fun less => lt_asymm less (space' ▸ above c low space)) fun less => lt_asymm less (lead_less (above c low space))
        · rw [if_neg space,if_neg space,if_neg space',cons_lt_cons_iff]
          by_cases same : c = d
          · rw [if_neg (not_not.mpr same),ih (by omega) rest rest']
            simp [same]
          · rw [if_pos same,char_less]
            simp [same]
where
  lead_less {x : CStr} {c : Char} {y : CStr} (above : ' ' < c) : lead x < c :: y := by
    cases x with
    | nil => exact List.nil_lt_cons _ _
    | cons a x => exact cons_lt_cons_iff.mpr (.inl above)
  nil_case {turns : Nat} {s t : CStr} (empty : s = []) (printable' : Printable t) : normspaceLoop turns s t < 0 ↔ squeeze false s < squeeze false t := by
    rw [empty,loop_nil_left]
    have zero := first_zero fun c there => (printable'.ascii c there).1
    have nonneg := first_nonneg (s := t.dropWhile isspace)
    rw [squeeze]
    cases text : squeeze false t with
    | nil => simp [zero.mpr text]
    | cons c s =>
      have positive := zero.not.mpr (by rw [text]; exact cons_ne_nil _ _)
      exact iff_of_true (by omega) (List.nil_lt_cons _ _)
end

section
variable {s t : CStr}

theorem normspace_zero (ascii : Ascii s) (ascii' : Ascii t) :
    trc_db_strcmp_normspace s t = 0 ↔ trc_db_test_params_normalise s = trc_db_test_params_normalise t := by
  rw [normalise_squeeze,normalise_squeeze]
  exact loop_zero length_skip ascii.skip ascii'.skip
theorem normspace_follows : Follows (fun s t : {s // Printable s} => trc_db_strcmp_normspace s t) fun s => trc_db_test_params_normalise s := by
  intro s t
  refine ⟨?_,normspace_zero s.2.ascii t.2.ascii⟩
  dsimp only
  rw [normalise_squeeze,normalise_squeeze]
  exact loop_less length_skip s.2.skip t.2.skip
end

section
variable {first a : TrcReportArgument} {args args' : List TrcReportArgument} {turns : Nat}

theorem sortTurn_spec : ((sortTurn first args).1 :: (sortTurn first args).2).Perm (first :: args) ∧ ∀ a ∈ (sortTurn first args).2, (sortTurn first args).1.name ≤ a.name := by
  induction args generalizing first with
  | nil => exact ⟨.refl _,nofun⟩
  | cons a args ih =>
    rw [sortTurn]
    by_cases greater : 0 < strcmp first.name a.name
    · rw [if_pos greater]
      obtain ⟨perm,least⟩ := @ih a
      have above : a.name < first.name := not_le.mp ((strcmp_follows.le_iff _ _).not.mp (not_le.mpr greater))
      refine ⟨(List.Perm.swap _ _ _).trans (perm.cons first),fun x there => ?_⟩
      obtain rfl | later := mem_cons.mp there
      · obtain same | inner := mem_cons.mp (perm.symm.subset mem_cons_self)
        · exact (same ▸ above).le
        · exact (least a inner).trans above.le
      · exact least x later
    · rw [if_neg greater]
      obtain ⟨perm,least⟩ := @ih first
      have below : first.name ≤ a.name := (strcmp_follows.le_iff _ _).mp (not_lt.mp greater)
      refine ⟨(List.Perm.swap _ _ _).trans ((perm.cons a).trans (List.Perm.swap _ _ _)),fun x there => ?_⟩
      obtain rfl | later := mem_cons.mp there
      · obtain same | inner := mem_cons.mp (perm.symm.subset mem_cons_self)
        · exact same ▸ below
        · exact (least first inner).trans below
      · exact least x later
theorem sortTurns_spec (enough : args.length ≤ turns) : (sortTurns turns args).Perm args ∧ (sortTurns turns args).Pairwise fun a b => a.name ≤ b.name := by
  induction turns generalizing args with
  | zero =>
    obtain rfl := length_eq_zero_iff.mp (le_zero.mp enough)
    exact ⟨.refl _,.nil⟩
  | succ turns ih =>
    cases args with
    | nil => exact ⟨.refl _,.nil⟩
    | cons first args =>
      obtain ⟨perm,least⟩ := @sortTurn_spec first args
      have length := perm.length_eq
      rw [length_cons] at length enough
      obtain ⟨perm',sorted⟩ := @ih (sortTurn first args).2 (by rw [length_cons] at length; omega)
      exact ⟨(perm'.cons _).trans perm,pairwise_cons.mpr ⟨fun a there => least a (perm'.subset there),sorted⟩⟩
/-- What the hash is computed of: the name and the normal form of an argument. -/
def hashed (a : TrcReportArgument) : CStr × CStr := (a.name,trc_db_test_params_normalise a.value)
/-- The text for the hash depends on which names and normal forms there are, if the names are different. -/
theorem hashText_congr (same : (args.map hashed).Perm (args'.map hashed)) (different : (args.map TrcReportArgument.name).Nodup) : hashText args = hashText args' := by
  obtain ⟨perm,sorted⟩ := sortTurns_spec (le_refl args.length)
  obtain ⟨perm',sorted'⟩ := sortTurns_spec (le_refl args'.length)
  have equal : (sortTurns args.length args).map hashed = (sortTurns args'.length args').map hashed := by
    have ordered : ∀ {l : List TrcReportArgument}, l.Pairwise (fun a b => a.name ≤ b.name) → (l.map hashed).Pairwise fun a b => a.1 ≤ b.1 := by
      intro l sorted
      exact pairwise_map.mpr sorted
    refine ((perm.map hashed).trans (same.trans (perm'.map hashed).symm)).eq_of_pairwise ?_ (ordered sorted) (ordered sorted')
    intro a b there there' below above
    have names : ((args.map hashed).map Prod.fst).Nodup := by rwa [map_map]
    have all : b ∈ args.map hashed := same.symm.subset ((perm'.map hashed).subset there')
    exact List.inj_on_of_nodup_map names ((perm.map hashed).subset there) all (le_antisymm below above)
  have pieces : ∀ l : List TrcReportArgument, l.map (fun a => a.name ++ ' ' :: trc_db_test_params_normalise a.value) =
      (l.map hashed).map fun p => p.1 ++ ' ' :: p.2 := fun l => by rw [map_map]; rfl
  rw [hashText,hashText,pieces,pieces,equal]

/-- An argument that is none of the variables of a test and no reference to one. -/
def Plain (a : TrcReportArgument) : Prop := a.variable' = false ∧ startsWith TEST_ARG_VAR_PREFIX a.value = false
variable {cmp : CStr → CStr → Int} {db_args : List TrcTestIterArg} {globals : Option (List TrcGlobal)}

theorem loop_exact {rest : List TrcReportArgument} {w : Bool}
    (plain : ∀ a ∈ args, Plain a) (whole : rest.any (fun a => !a.variable') = false)
    (done : argsMatchLoop cmp globals true args db_args false w = some ([],rest,false)) :
    w = false ∧ List.Forall₂ (fun (a : TrcReportArgument) (d : TrcTestIterArg) => a.name = d.name ∧ cmp a.value d.value = 0) args db_args := by
  induction args generalizing db_args w with
  | nil =>
    cases db_args with
    | nil =>
      obtain ⟨-,rfl⟩ := (by simpa [argsMatchLoop,eq_comm] using done : rest = [] ∧ w = false)
      exact ⟨rfl,.nil⟩
    | cons d db_args => simp [argsMatchLoop] at done
  | cons a args ih =>
    obtain ⟨fixed,value⟩ := plain a mem_cons_self
    cases db_args with
    | nil =>
      obtain ⟨rfl,rfl⟩ := (by simpa [argsMatchLoop] using done : a :: args = rest ∧ w = false)
      simp [fixed] at whole
    | cons d db_args =>
      rw [argsMatchLoop,if_neg (by simp [fixed])] at done
      by_cases name : a.name = d.name
      · rw [if_neg (not_not.mpr name)] at done
        have later := fun w => @ih db_args w fun b there => plain b (mem_cons_of_mem _ there)
        split_ifs at done with wild same
        · cases (later true done).1
        · obtain ⟨none_wild,equal⟩ := later w done
          refine ⟨none_wild,.cons ⟨name,?_⟩ equal⟩
          simpa [argValueMatch,value] using same
      · simp [name] at done
/-- An exact match in the strict sense is one of all names and values in their order. -/
theorem exact_match (plain : ∀ a ∈ args, Plain a)
    (exact : test_iter_args_match cmp globals db_args args true = .EXACT_MATCH) :
    List.Forall₂ (fun (a : TrcReportArgument) (d : TrcTestIterArg) => a.name = d.name ∧ cmp a.value d.value = 0) args db_args := by
  rw [test_iter_args_match] at exact
  split at exact
  case h_1 rest w done =>
    split_ifs at exact with more wild
    rw [Bool.not_eq_true] at wild
    subst wild
    exact (loop_exact plain (by simpa using more) done).2
  case h_2 => cases exact

/-- An argument of the database as one of a call. -/
def ofDatabase (d : TrcTestIterArg) : TrcReportArgument := ⟨d.name,d.value,false⟩
theorem values_normal_form :
    (∀ s t, Ascii s → Ascii t → (trc_db_strcmp_normspace s t = 0 ↔ trc_db_test_params_normalise s = trc_db_test_params_normalise t)) ∧
    (∀ s t, Blanks s → Blanks t → trc_db_strcmp_normspace s t = -trc_db_strcmp_normspace t s) ∧
    Preorders (fun s t : {s // Printable s} => trc_db_strcmp_normspace s t) ∧
    ∀ globals db_args args, (∀ a ∈ args, Plain a ∧ Ascii a.value) → (∀ d ∈ db_args, Ascii d.value) → (args.map TrcReportArgument.name).Nodup →
      test_iter_args_match trc_db_strcmp_normspace globals db_args args true = .EXACT_MATCH →
      ∀ order order', order.Perm args → order'.Perm (db_args.map ofDatabase) → hashText order = hashText order' := by
  refine ⟨fun s t => normspace_zero,fun s t blanks blanks' => loop_turned length_skip length_skip blanks.skip blanks'.skip,normspace_follows.preorders,fun globals db_args args good ascii different exact order order' perm perm' => ?_⟩
  have pairs := exact_match (fun a there => (good a there).1) exact
  have same : args.map hashed = (db_args.map ofDatabase).map hashed := by
    rw [map_map]
    clear exact perm perm' different
    induction pairs with
    | nil => rfl
    | cons pair _ ih =>
      rw [map_cons,map_cons,ih (fun a there => good a (mem_cons_of_mem _ there)) fun d there => ascii d (mem_cons_of_mem _ there)]
      rw [comp_apply,hashed,hashed,ofDatabase,pair.1,(normspace_zero (good _ mem_cons_self).2 (ascii _ mem_cons_self)).mp pair.2]
  refine hashText_congr ?_ ((perm.map _).nodup_iff.mpr different)
  exact (perm.map hashed).trans ((List.Perm.of_eq same).trans (perm'.map hashed).symm)
theorem values_normal_form_two : hashText [⟨"b".toList," 2".toList,false⟩,⟨"a".toList,"1  x".toList,false⟩] =
    hashText [⟨"a".toList,"1 x ".toList,false⟩,⟨"b".toList,"2".toList,false⟩] := by
  refine values_normal_form.2.2.2 none [⟨"a".toList,"1 x ".toList⟩,⟨"b".toList,"2".toList⟩] [⟨"a".toList,"1  x".toList,false⟩,⟨"b".toList," 2".toList,false⟩]
    ?_ ?_ ?_ ?_ _ _ (.swap _ _ _) (.refl _)
  · simp [Plain,Ascii,startsWith,TEST_ARG_VAR_PREFIX] <;> decide
  · simp [Ascii]
  · decide +kernel
  · decide +kernel
/-- A control character comes before a blank and behind the end of a string. A variable of a test, a reference to one, and two arguments with one name
are in the text for the hash. -/
theorem hashes_differ :
    (trc_db_strcmp_normspace ['a','\x01'] ['a',' '] < 0 ∧ trc_db_strcmp_normspace ['a',' '] ['a'] = 0 ∧ 0 < trc_db_strcmp_normspace ['a','\x01'] ['a']) ∧
    (test_iter_args_match trc_db_strcmp_normspace none [⟨['a'],['1']⟩] [⟨['a'],['1'],false⟩,⟨['b'],['2'],true⟩] true = .EXACT_MATCH ∧
      hashText [⟨['a'],['1'],false⟩,⟨['b'],['2'],true⟩] ≠ hashText [⟨['a'],['1'],false⟩]) ∧
    (test_iter_args_match trc_db_strcmp_normspace (some [⟨['x'],['1']⟩]) [⟨['a'],['1']⟩] [⟨['a'],"VAR.x".toList,false⟩] true = .EXACT_MATCH ∧
      hashText [⟨['a'],"VAR.x".toList,false⟩] ≠ hashText [⟨['a'],['1'],false⟩]) ∧
    hashText [⟨['a'],['1'],false⟩,⟨['a'],['2'],false⟩] ≠ hashText [⟨['a'],['2'],false⟩,⟨['a'],['1'],false⟩] := by decide
end
end TestEnvironment.Trc
