import TestEnvironment.Lib.Names

/-!
Numbers written with one digit for each of some places, the most significant
digit first, by successive division. A place has a digit of its own or, under a
key, shares it with the places of the same key.
-/
namespace TestEnvironment.Lib

section
variable {r n p i : Nat}

/-- The quotients and remainders of a division determine the number. -/
theorem div_mod_unique {j : Nat} (quot : i/n = j/n) (rem : i%n = j%n) : i = j := by
  rw [← Nat.div_add_mod i n,← Nat.div_add_mod j n,quot,rem]
theorem div_lt_radix (bound : i < r*n) : i/n < r := Nat.div_lt_of_lt_mul (Nat.mul_comm r n ▸ bound)
theorem add_div_radix (bound : i < n) : (p*n+i)/n = p := by
  rw [Nat.mul_comm,Nat.mul_add_div (by omega),Nat.div_eq_of_lt bound,Nat.add_zero]
theorem add_mod_radix (bound : i < n) : (p*n+i)%n = i := by
  rw [Nat.mul_comm,Nat.mul_add_mod,mod_eq_of_lt bound]
theorem add_lt_radix (digit : p < r) (bound : i < n) : p*n+i < r*n := by
  calc p*n+i < p*n+n := Nat.add_lt_add_left bound _
    _ = (p+1)*n := by ring
    _ ≤ r*n := Nat.mul_le_mul_right n digit
/-- The conditions for another digit. -/
theorem divides_iff (positive : 0 < n) : ¬(r = 0 ∨ n%r ≠ 0 ∨ n/r = 0) ↔ r ∣ n := by
  constructor
  · omega
  · rintro ⟨q,rfl⟩ bad
    have radix : 0 < r := Nat.pos_of_mul_pos_right positive
    rcases bad with zero | rem | quot
    · omega
    · exact rem (Nat.mul_mod_right r q)
    · rw [Nat.mul_div_cancel_left q radix] at quot
      simp [quot] at positive
end

section
variable {κ : Type} [DecidableEq κ]

/-- The digit that is known for a key. -/
def known? (known : List (κ × Nat)) (key : Option κ) : Option Nat :=
  key.bind fun key => (known.find? fun entry => entry.1 = key).map Prod.snd
def learn (key : Option κ) (digit : Nat) (known : List (κ × Nat)) : List (κ × Nat) :=
  match key with
  | none => known
  | some key => (key,digit) :: known
/-- The digits of `i` below `n`, for places with their keys and radices; none if a
    radix does not divide what is left of `n`. -/
def digits : List (Option κ × Nat) → List (κ × Nat) → Nat → Nat → Option (List Nat)
  | [], _, _, _ => some []
  | (key,r) :: places, known, n, i =>
    match known? known key with
    | some d => (digits places known n i).map fun ds => d :: ds
    | none =>
      if r = 0 ∨ n%r ≠ 0 ∨ n/r = 0 then none
      else (digits places (learn key (i/(n/r)) known) (n/r) (i%(n/r))).map fun ds => i/(n/r) :: ds
/-- How many numbers the places have digits for, where the keys in `known` do not count. -/
def total : List (Option κ × Nat) → List κ → Nat
  | [], _ => 1
  | (none,r) :: places, known => r*total places known
  | (some key,r) :: places, known => if key ∈ known then total places known else r*total places (key :: known)
/-- Digits below the radices, the same for the same key. -/
def Fits (common : κ → Nat) (place : Option κ × Nat) (d : Nat) : Prop :=
  d < place.2 ∧ ∀ key, place.1 = some key → d = common key

variable {places : List (Option κ × Nat)} {known : List (κ × Nat)} {n i : Nat} {ds : List Nat}

theorem known_some_iff {key : κ} : (known? known (some key)).isSome ↔ key ∈ known.map Prod.fst := by
  simp [known?]
variable {key : Option κ} {keys : List κ}

theorem total_new {r : Nat} (new : known? known key = none) (d : Nat) :
    total ((key,r) :: places) (known.map Prod.fst) = r*total places ((learn key d known).map Prod.fst) := by
  cases key with
  | none => rfl
  | some key =>
    rw [total,if_neg]
    · rfl
    · rw [← known_some_iff,new]
      simp
theorem total_old {r d : Nat} (old : known? known key = some d) :
    total ((key,r) :: places) (known.map Prod.fst) = total places (known.map Prod.fst) := by
  cases key with
  | none => cases old
  | some key =>
    rw [total,if_pos]
    rw [← known_some_iff,old]
    rfl
theorem digits_old {r d : Nat} (old : known? known key = some d) :
    digits ((key,r) :: places) known n i = (digits places known n i).map fun ds => d :: ds := by
  rw [digits,old]
theorem digits_new {r : Nat} (new : known? known key = none) (positive : 0 < n) (divides : r ∣ n) :
    digits ((key,r) :: places) known n i =
      (digits places (learn key (i/(n/r)) known) (n/r) (i%(n/r))).map fun ds => i/(n/r) :: ds := by
  rw [digits,new]
  exact if_neg ((divides_iff positive).mpr divides)

/-- There are digits only if the numbers are shared out evenly. -/
theorem digits_total (positive : 0 < n) (got : digits places known n i = some ds) :
    total places (known.map Prod.fst) ∣ n := by
  induction places generalizing known n i ds with
  | nil => exact Nat.one_dvd n
  | cons place places ih =>
    obtain ⟨key,r⟩ := place
    cases state : known? known key with
    | some d =>
      rw [digits_old state] at got
      obtain ⟨ds,rest,-⟩ := of_map got
      rw [total_old state]
      exact ih positive rest
    | none =>
      by_cases divides : r ∣ n
      · rw [digits_new state positive divides] at got
        obtain ⟨ds,rest,-⟩ := of_map got
        obtain ⟨q,rfl⟩ := divides
        have radix : 0 < r := Nat.pos_of_mul_pos_right positive
        rw [Nat.mul_div_cancel_left q radix] at rest
        rw [total_new state]
        exact Nat.mul_dvd_mul_left r (ih (Nat.pos_of_mul_pos_left positive) rest)
      · rw [digits,state] at got
        simp only [if_pos (not_not.mp fun ok => divides ((divides_iff positive).mp ok))] at got
        cases got
theorem digits_some (positive : 0 < n) (divides : total places (known.map Prod.fst) ∣ n) :
    ∃ ds, digits places known n i = some ds := by
  induction places generalizing known n i with
  | nil => exact ⟨[],rfl⟩
  | cons place places ih =>
    obtain ⟨key,r⟩ := place
    cases state : known? known key with
    | some d => simp_all [total_old,digits_old]
    | none =>
      rw [total_new state (i/(n/r))] at divides
      have first : r ∣ n := Dvd.dvd.trans (Nat.dvd_mul_right _ _) divides
      have left : 0 < n/r := Nat.div_pos (Nat.le_of_dvd positive first) (Nat.pos_of_dvd_of_pos first positive)
      obtain ⟨ds,rest⟩ := ih (i := i%(n/r)) left (Nat.dvd_div_of_mul_dvd divides)
      exact ⟨i/(n/r) :: ds,by rw [digits_new state positive first,rest]; rfl⟩

/-- The digits of a number below `n` are below the radices, and the same for the same key. -/
theorem digits_fit (radix : κ → Nat) (radices : ∀ key r, (some key,r) ∈ places → r = radix key)
    (bounded : ∀ key d, known? known (some key) = some d → d < radix key) (less : i < n) (got : digits places known n i = some ds) :
    ∃ common : κ → Nat, (∀ key d, known? known (some key) = some d → common key = d) ∧ List.Forall₂ (Fits common) places ds := by
  induction places generalizing known n i ds with
  | nil =>
    obtain rfl := some.inj got
    exact ⟨fun key => (known? known (some key)).getD 0,fun key d isKnown => by simp [isKnown],.nil⟩
  | cons place places ih =>
    obtain ⟨key,r⟩ := place
    have later : ∀ key r, (some key,r) ∈ places → r = radix key := fun key r member => radices key r (mem_cons_of_mem _ member)
    cases state : known? known key with
    | some d =>
      rw [digits_old state] at got
      obtain ⟨ds,rest,rfl⟩ := of_map got
      obtain ⟨common,agrees,fits⟩ := ih later bounded less rest
      cases key with
      | none => cases state
      | some key =>
        refine ⟨common,agrees,.cons ⟨?_,?_⟩ fits⟩
        · exact radices key r mem_cons_self ▸ bounded key d state
        · grind
    | none =>
      by_cases divides : r ∣ n
      · have positive : 0 < n := by omega
        rw [digits_new state positive divides] at got
        obtain ⟨ds,rest,rfl⟩ := of_map got
        obtain ⟨q,rfl⟩ := divides
        have first : 0 < r := Nat.pos_of_mul_pos_right positive
        have left : 0 < q := Nat.pos_of_mul_pos_left positive
        rw [Nat.mul_div_cancel_left q first] at rest ⊢
        have digit : i/q < r := div_lt_radix less
        cases key with
        | none =>
          obtain ⟨common,agrees,fits⟩ := ih later bounded (mod_lt i left) rest
          exact ⟨common,agrees,.cons ⟨digit,by simp⟩ fits⟩
        | some key =>
          have bounded' : ∀ key' d, known? (learn (some key) (i/q) known) (some key') = some d → d < radix key' := by
            intro key' d isKnown
            by_cases same : key = key'
            · subst same
              obtain rfl : i/q = d := by simpa [known?,learn] using isKnown
              exact radices key r mem_cons_self ▸ digit
            · refine bounded key' d ?_
              simpa [known?,learn,same] using isKnown
          obtain ⟨common,agrees,fits⟩ := ih later bounded' (mod_lt i left) rest
          refine ⟨common,fun key' d isKnown => agrees key' d ?_,.cons ⟨digit,?_⟩ fits⟩
          · have other : key ≠ key' := by
              rintro rfl
              rw [state] at isKnown
              cases isKnown
            simpa [known?,learn,other] using isKnown
          · intro key' isKey
            obtain rfl := some.inj isKey
            exact (agrees key (i/q) (by simp [known?,learn])).symm
      · rw [digits,state] at got
        simp only [if_pos (not_not.mp fun ok => divides ((divides_iff (by omega)).mp ok))] at got
        cases got

/-- Different numbers have different digits if there are no more numbers than digits for them. -/
theorem digits_once {j : Nat} (all : n = total places (known.map Prod.fst)) (less : i < n) (less' : j < n)
    (got : digits places known n i = some ds) (got' : digits places known n j = some ds) : i = j := by
  induction places generalizing known n i j ds with
  | nil =>
    have one : n = 1 := all
    omega
  | cons place places ih =>
    obtain ⟨key,r⟩ := place
    cases state : known? known key with
    | some d =>
      rw [total_old state] at all
      rw [digits_old state] at got got'
      obtain ⟨ds,rest,rfl⟩ := of_map got
      obtain ⟨ds',rest',same⟩ := of_map got'
      obtain rfl : ds' = ds := by simpa using same
      exact ih all less less' rest rest'
    | none =>
      rw [total_new state (i/(n/r))] at all
      have positive : 0 < n := by omega
      have divides : r ∣ n := ⟨_,all⟩
      rw [digits_new state positive divides] at got got'
      obtain ⟨ds,rest,rfl⟩ := of_map got
      obtain ⟨ds',rest',same⟩ := of_map got'
      obtain ⟨first,rfl⟩ : j/(n/r) = i/(n/r) ∧ ds' = ds := by simpa using same
      have radix : 0 < r := Nat.pos_of_dvd_of_pos divides positive
      have left : 0 < n/r := Nat.div_pos (Nat.le_of_dvd positive divides) radix
      rw [first] at rest'
      refine div_mod_unique first.symm (ih ?_ (mod_lt i left) (mod_lt j left) rest rest')
      exact Nat.div_eq_of_eq_mul_right radix all
/-- Some number has given digits if there are as many numbers as digits for them. -/
theorem digits_onto {common : κ → Nat} (all : n = total places (known.map Prod.fst)) (positive : 0 < n)
    (agrees : ∀ key d, known? known (some key) = some d → common key = d) (fits : List.Forall₂ (Fits common) places ds) :
    ∃ i < n, digits places known n i = some ds := by
  induction fits generalizing known n with
  | nil => exact ⟨0,positive,rfl⟩
  | @cons place d places ds fit fits ih =>
    obtain ⟨key,r⟩ := place
    cases state : known? known key with
    | some d' =>
      rw [total_old state] at all
      obtain ⟨i,less,got⟩ := ih all positive agrees
      refine ⟨i,less,?_⟩
      cases key with
      | none => cases state
      | some key =>
        obtain rfl : d = d' := (fit.2 key rfl).trans (agrees key d' state)
        rw [digits_old state,got]
        rfl
    | none =>
      rw [total_new state d] at all
      have divides : r ∣ n := ⟨_,all⟩
      have radix : 0 < r := Nat.pos_of_dvd_of_pos divides positive
      have left : 0 < n/r := Nat.div_pos (Nat.le_of_dvd positive divides) radix
      have agrees' : ∀ key' d', known? (learn key d known) (some key') = some d' → common key' = d' := by
        intro key' d' isKnown
        cases key with
        | none => exact agrees key' d' isKnown
        | some key =>
          by_cases same : key = key'
          · subst same
            obtain rfl : d = d' := by simpa [known?,learn] using isKnown
            exact (fit.2 key rfl).symm
          · refine agrees key' d' ?_
            simpa [known?,learn,same] using isKnown
      obtain ⟨i,less,got⟩ := ih (Nat.div_eq_of_eq_mul_right radix all) left agrees'
      have whole : r*(n/r) = n := Nat.mul_div_cancel' divides
      refine ⟨d*(n/r)+i,Nat.lt_of_lt_of_eq (add_lt_radix fit.1 less) whole,?_⟩
      rw [digits_new state positive divides,add_div_radix less,add_mod_radix less,got]
      rfl

/-- A further place counts unless its key has one before. -/
theorem total_snoc (places : List (Option κ × Nat)) (keys : List κ) (key : Option κ) (r : Nat) :
    total (places ++ [(key,r)]) keys =
      if ∃ k, key = some k ∧ (k ∈ keys ∨ some k ∈ places.map Prod.fst) then total places keys else total places keys*r := by
  induction places generalizing keys with
  | nil => cases key <;> simp [total]
  | cons place places ih =>
    obtain ⟨key',r'⟩ := place
    cases key' with
    | none =>
      rw [cons_append,total,total,ih]
      simp only [map_cons,mem_cons,reduceCtorEq,false_or]
      split <;> ring
    | some key' =>
      rw [cons_append,total,total]
      by_cases old : key' ∈ keys
      · rw [if_pos old,if_pos old,ih]
        refine if_congr (exists_congr fun k => and_congr_right fun _ => ?_) rfl rfl
        simp only [map_cons,mem_cons,some_inj]
        constructor
        · exact fun known => known.imp id .inr
        · grind
      · rw [if_neg old,if_neg old,ih]
        have same : (∃ k, key = some k ∧ (k ∈ key' :: keys ∨ some k ∈ places.map Prod.fst)) ↔
            ∃ k, key = some k ∧ (k ∈ keys ∨ some k ∈ ((some key',r') :: places).map Prod.fst) := by grind
        by_cases known : ∃ k, key = some k ∧ (k ∈ key' :: keys ∨ some k ∈ places.map Prod.fst)
        · rw [if_pos known,if_pos (same.mp known)]
        · rw [if_neg known,if_neg (same.not.mp known)]
          ring
theorem total_snoc_old {places : List (Option κ × Nat)} {k : κ} {r : Nat} (old : k ∈ keys ∨ some k ∈ places.map Prod.fst) :
    total (places ++ [(some k,r)]) keys = total places keys := by
  rw [total_snoc,if_pos ⟨k,rfl,old⟩]
theorem total_snoc_new {places : List (Option κ × Nat)} {r : Nat}
    (new : ∀ k, key = some k → k ∉ keys ∧ some k ∉ places.map Prod.fst) : total (places ++ [(key,r)]) keys = total places keys*r := by
  simp_all [total_snoc]
theorem total_dvd_append (places others : List (Option κ × Nat)) (keys : List κ) : total places keys ∣ total (places ++ others) keys := by
  induction places generalizing keys with
  | nil => exact Nat.one_dvd _
  | cons place places ih =>
    obtain ⟨key,r⟩ := place
    cases key with
    | none => exact Nat.mul_dvd_mul_left r (ih keys)
    | some key => grind [Nat.mul_dvd_mul_left,total]
/-- The digit of a place whose key has none before, by the numbers that the places in front
    of it have digits for. -/
theorem digits_at {r : Nat} {others : List (Option κ × Nat)} (positive : 0 < n) (less : i < n)
    (new : known? known key = none) (first : ∀ k, key = some k → some k ∉ places.map Prod.fst)
    (got : digits (places ++ (key,r) :: others) known n i = some ds) :
    ds[places.length]? = some (i/(n/(total places (known.map Prod.fst)*r))%r) := by
  induction places generalizing known n i ds with
  | nil =>
    have divides : r ∣ n := (Nat.dvd_mul_right r _).trans (total_new new 0 ▸ digits_total positive got)
    rw [nil_append,digits_new new positive divides] at got
    obtain ⟨ds,-,rfl⟩ := of_map got
    have digit : i/(n/r) < r := by
      obtain ⟨q,rfl⟩ := divides
      rw [Nat.mul_div_cancel_left q (Nat.pos_of_mul_pos_right positive)]
      exact div_lt_radix less
    simp [total,mod_eq_of_lt digit]
  | cons place places ih =>
    obtain ⟨key',r'⟩ := place
    have first' : ∀ k, key = some k → some k ∉ places.map Prod.fst := fun k isKey member => first k isKey (mem_cons_of_mem _ member)
    rw [cons_append] at got
    cases state : known? known key' with
    | some d =>
      rw [digits_old state] at got
      obtain ⟨ds,rest,rfl⟩ := of_map got
      rw [length_cons,List.getElem?_cons_succ,total_old state]
      exact ih positive less new first' rest
    | none =>
      have whole := digits_total positive got
      rw [total_new state 0] at whole
      have divides : r' ∣ n := (Nat.dvd_mul_right r' _).trans whole
      rw [digits_new state positive divides] at got
      obtain ⟨ds,rest,rfl⟩ := of_map got
      obtain ⟨m,rfl⟩ := divides
      have radix : 0 < r' := Nat.pos_of_mul_pos_right positive
      have left : 0 < m := Nat.pos_of_mul_pos_left positive
      rw [Nat.mul_div_cancel_left m radix] at rest
      have new' : known? (learn key' (i/m) known) key = none := by
        cases key with
        | none => rfl
        | some k =>
          cases key' with
          | none => exact new
          | some k' =>
            have other : k' ≠ k := fun same => first k rfl (by simp [same])
            simpa [known?,learn,other] using new
      have digit := ih left (mod_lt i left) new' first' rest
      rw [length_cons,List.getElem?_cons_succ,digit,total_new state (i/m)]
      -- what is left of `n` is a multiple of the numbers up to the place
      have unknown : ¬∃ k, key = some k ∧ (k ∈ (learn key' (i/m) known).map Prod.fst ∨ some k ∈ places.map Prod.fst) := by
        rintro ⟨k,rfl,isKnown | before⟩
        · rw [← known_some_iff,new'] at isKnown
          cases isKnown
        · exact first' k rfl before
      have part := digits_total left rest
      rw [List.append_cons] at part
      have before := (total_dvd_append (places ++ [(key,r)]) others _).trans part
      rw [total_snoc,if_neg unknown] at before
      generalize total places ((learn key' (i/m) known).map Prod.fst) = t at before ⊢
      obtain ⟨q,rfl⟩ := before
      have front : 0 < t*r := Nat.pos_of_mul_pos_right left
      rw [Nat.mul_div_cancel_left q front,show r'*(t*r*q) = r'*t*r*q by ring,Nat.mul_div_cancel_left q (by rw [Nat.mul_assoc]; exact Nat.mul_pos radix front),
        Nat.mul_comm (t*r) q,Nat.mod_mul_right_div_self,Nat.mod_mod_of_dvd _ (Nat.dvd_mul_left r t)]
end
end TestEnvironment.Lib
