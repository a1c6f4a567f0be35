import TestEnvironment.Lib.Names

/-!
Embeddings of a list into another one as a subsequence, given by the positions its elements
take: all of them, and the one in which every element takes the first place it can, with
the places that are left filled by something made for them.
-/
namespace TestEnvironment.Lib
variable {α β : Type} {whole part : List α} {positions : List Nat}

/-- The positions at which `part` stands in `whole`, in its order. -/
def Embeds (whole part : List α) (positions : List Nat) : Prop :=
  positions.Pairwise (· < ·) ∧ positions.map (whole[·]?) = part.map some

theorem embeds_nil : Embeds whole [] positions ↔ positions = [] :=
  ⟨fun embeds => by simpa using embeds.2,fun none => by subst none; exact ⟨.nil,rfl⟩⟩
theorem embeds_shift {a : α} : Embeds (a :: whole) part (positions.map (·+1)) ↔ Embeds whole part positions := by
  simp [Embeds,pairwise_map,comp_def]
theorem embeds_zero {a b : α} : Embeds (a :: whole) (b :: part) (0 :: positions.map (·+1)) ↔ a = b ∧ Embeds whole part positions := by
  simp [Embeds,pairwise_map,comp_def]
  tauto
/-- Increasing positions start at the first place or are all behind it. -/
theorem increasing_cases (increasing : positions.Pairwise (· < ·)) :
    (∃ rest : List Nat, positions = rest.map (·+1)) ∨ ∃ rest : List Nat, positions = 0 :: rest.map (·+1) := by
  have shifted : ∀ {later : List Nat}, (∀ p ∈ later, 0 < p) → ∃ rest : List Nat, later = rest.map (·+1) := fun {later} positive =>
    ⟨later.map (·-1),by
      rw [map_map]
      exact (List.map_id _).symm.trans (map_congr_left fun p mem => (Nat.sub_add_cancel (positive p mem)).symm)⟩
  cases increasing with
  | nil => exact .inl ⟨[],rfl⟩
  | @cons p later below _ =>
    cases p with
    | zero =>
      obtain ⟨rest,eq⟩ := shifted below
      exact .inr ⟨rest,by rw [eq]⟩
    | succ p => exact .inl (shifted fun q mem => by rcases mem_cons.mp mem with rfl | mem; exacts [p.succ_pos,zero_lt_of_lt (below q mem)])

/-- Taking the first place leaves an embedding for the rest: a later place of the first
    element can be exchanged for it. -/
theorem Embeds.early {b : α} (embeds : Embeds (b :: whole) (b :: part) positions) :
    ∃ rest, Embeds whole part rest := by
  rcases increasing_cases embeds.1 with ⟨rest,rfl⟩ | ⟨rest,rfl⟩
  · obtain ⟨increasing,places⟩ := embeds_shift.mp embeds
    cases rest with
    | nil => simp at places
    | cons p rest => exact ⟨rest,increasing.of_cons,(cons.inj places).2⟩
  · exact ⟨rest,(embeds_zero.mp embeds).2⟩

section
variable [DecidableEq α]

def embeddings : List α → List α → List (List Nat)
  | _, [] => [[]]
  | [], _ :: _ => []
  | a :: whole, b :: part =>
    (if a = b then (embeddings whole part).map fun rest => 0 :: rest.map (·+1) else []) ++
      (embeddings whole (b :: part)).map (List.map (·+1))

theorem embeddings_nil (whole : List α) : embeddings whole [] = [[]] := by cases whole <;> rfl
theorem mem_embeddings : positions ∈ embeddings whole part ↔ Embeds whole part positions := by
  induction whole generalizing part positions with
  | nil =>
    cases part with
    | nil => rw [embeddings_nil,mem_singleton,embeds_nil]
    | cons b part => cases positions <;> simp [embeddings,Embeds]
  | cons a whole ih =>
    cases part with
    | nil => rw [embeddings_nil,mem_singleton,embeds_nil]
    | cons b part =>
      rw [embeddings,mem_append,mem_map]
      constructor
      · rintro (first | ⟨rest,mem,rfl⟩)
        · by_cases same : a = b
          · rw [if_pos same] at first
            obtain ⟨rest,mem,rfl⟩ := mem_map.mp first
            exact embeds_zero.mpr ⟨same,ih.mp mem⟩
          · rw [if_neg same] at first
            exact absurd first not_mem_nil
        · exact embeds_shift.mpr (ih.mp mem)
      · intro embeds
        rcases increasing_cases embeds.1 with ⟨rest,rfl⟩ | ⟨rest,rfl⟩
        · exact .inr ⟨rest,ih.mpr (embeds_shift.mp embeds),rfl⟩
        · obtain ⟨same,embeds⟩ := embeds_zero.mp embeds
          rw [if_pos same]
          exact .inl (mem_map_of_mem (ih.mpr embeds))
theorem nodup_embeddings : (embeddings whole part).Nodup := by
  have shift : Function.Injective (List.map (· + 1) : List Nat → List Nat) := List.map_injective_iff.mpr (add_left_injective 1)
  induction whole generalizing part with
  | nil => cases part <;> simp [embeddings]
  | cons a whole ih =>
    cases part with
    | nil => rw [embeddings_nil]; exact List.nodup_singleton _
    | cons b part =>
      rw [embeddings]
      refine nodup_append.mpr ⟨?_,ih.map shift,?_⟩
      · split
        · exact ih.map fun rest other same => shift (cons.inj same).2
        · exact .nil
      · -- one list of positions starts with 0, none of the others contains it
        intro first mem later mem' same
        obtain ⟨rest,_,rfl⟩ := mem_map.mp mem'
        split at mem
        · obtain ⟨other,_,rfl⟩ := mem_map.mp mem
          have zero : 0 ∈ rest.map (·+1) := same ▸ mem_cons_self
          simp at zero
        · exact absurd mem not_mem_nil
theorem embeddings_short (short : whole.length < part.length) : embeddings whole part = [] := by
  induction whole generalizing part with
  | nil =>
    cases part with
    | nil => simp at short
    | cons => rfl
  | cons a whole ih =>
    cases part with
    | nil => simp at short
    | cons b part =>
      have shorter : whole.length < part.length := by simpa using short
      have skipped : embeddings whole (b :: part) = [] := ih (Nat.lt_succ_of_lt shorter)
      rw [embeddings,ih shorter,skipped]
      simp
/-- There is one and only one embedding if the list of all of them has one member. -/
theorem embeddings_unique : (embeddings whole part).length = 1 ↔ ∃! positions, Embeds whole part positions := by
  rw [List.length_eq_one_iff]
  constructor
  · rintro ⟨positions,only⟩
    exact ⟨positions,mem_embeddings.mp (by simp [only]),fun other embeds => by
      simpa [only] using mem_embeddings.mpr embeds⟩
  · rintro ⟨positions,embeds,only⟩
    exact ⟨positions,(List.perm_singleton.mp ((List.perm_ext_iff_of_nodup nodup_embeddings (List.nodup_singleton _)).mpr fun other => by
      rw [mem_embeddings,mem_singleton]
      exact ⟨only other,fun eq => eq ▸ embeds⟩))⟩
end

section
variable [DecidableEq α] (kind : β → α) (make : α → β)

/-- Each element of `given` in the first place of its kind, and something made for every place
    that is passed. -/
def fill : List α → List β → List β
  | [], given => given
  | a :: whole, [] => make a :: fill whole []
  | a :: whole, b :: given => if kind b = a then b :: fill whole given else make a :: fill whole (b :: given)

variable {kind make} {given : List β}

theorem fill_nil (whole : List α) : fill kind make whole [] = whole.map make := by
  induction whole with
  | nil => rfl
  | cons a whole ih => rw [fill,ih]; rfl
/-- If there is any embedding, the filled list has an element of the right kind at every
    place, with the given ones at the positions of an embedding and made ones elsewhere. -/
theorem fill_spec (makes : ∀ a ∈ whole, kind (make a) = a) (embeds : Embeds whole (given.map kind) positions) :
    (fill kind make whole given).map kind = whole ∧ ∃ places, Embeds whole (given.map kind) places ∧
      Embeds (fill kind make whole given) given places ∧
      ∀ i, i ∉ places → (fill kind make whole given)[i]? = (whole[i]?).map make := by
  induction whole generalizing given positions with
  | nil =>
    cases given with
    | nil => exact ⟨rfl,[],embeds_nil.mpr rfl,embeds_nil.mpr rfl,by simp [fill]⟩
    | cons b given => exact absurd embeds.2 (by cases positions <;> simp)
  | cons a whole ih =>
    have makes' : ∀ a ∈ whole, kind (make a) = a := fun b mem => makes b (mem_cons_of_mem _ mem)
    cases given with
    | nil =>
      refine ⟨?_,[],embeds_nil.mpr rfl,embeds_nil.mpr rfl,fun i _ => by rw [fill_nil,getElem?_map]⟩
      rw [fill_nil,map_map]
      exact (map_congr_left makes).trans (List.map_id' _)
    | cons b given =>
      rw [fill]
      by_cases same : kind b = a
      · subst same
        obtain ⟨rest,embeds⟩ := embeds.early
        obtain ⟨kinds,places,early,kept,made⟩ := ih makes' embeds
        rw [if_pos rfl]
        refine ⟨by rw [map_cons,kinds],0 :: places.map (·+1),embeds_zero.mpr ⟨rfl,early⟩,embeds_zero.mpr ⟨rfl,kept⟩,fun i away => ?_⟩
        cases i with
        | zero => simp at away
        | succ i => exact made i fun mem => away (mem_cons_of_mem _ (mem_map_of_mem mem))
      · obtain ⟨rest,eq⟩ | ⟨rest,eq⟩ := increasing_cases embeds.1
        · subst eq
          obtain ⟨kinds,places,early,kept,made⟩ := ih makes' (embeds_shift.mp embeds)
          rw [if_neg same]
          refine ⟨by rw [map_cons,kinds,makes a mem_cons_self],places.map (·+1),embeds_shift.mpr early,embeds_shift.mpr kept,fun i away => ?_⟩
          cases i with
          | zero => rfl
          | succ i => exact made i fun mem => away (mem_map_of_mem mem)
        · subst eq
          exact absurd (embeds_zero.mp embeds).1.symm same
end
end TestEnvironment.Lib
