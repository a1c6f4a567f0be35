import TestEnvironment.Configurator.Oid

/-!
The common root of two OIDs (`cfg_oid_common_root` of `conf_oid.c`).
-/
namespace TestEnvironment.Configurator
open Lib

section
variable {oid1 oid2 : CfgOid}

/-- The loop over both: how many components have the same subids. -/
def commonLen : List CfgSubid → List CfgSubid → Nat
  | a :: ids1,b :: ids2 => if a.subid = b.subid then commonLen ids1 ids2+1 else 0
  | _,_ => 0
/-- The result, and the first OID afterwards: for two object OIDs the result stays as it is allocated, and the subids are
    copied from the first OID to itself. -/
def cfg_oid_common_root (oid1 oid2 : CfgOid) : CfgOid × CfgOid :=
  let common := commonLen oid1.ids oid2.ids
  if oid1.inst || oid2.inst then
    let names := if oid1.inst then oid1 else oid2
    (⟨true,(List.zipWith (fun a b => ⟨a.subid,b.name⟩) oid1.ids names.ids).take common ++ (oid1.ids.drop common).map fun a => ⟨a.subid,['*']⟩⟩,oid1)
  else
    (⟨true,replicate oid1.ids.length ⟨[],[]⟩⟩,
      {oid1 with ids := (oid1.ids.take common).map (fun a => {a with subid := a.subid}) ++ oid1.ids.drop common})

/-- The components up to the first with another subid. -/
structure Common (ids1 ids2 front1 front2 back1 back2 : List CfgSubid) : Prop where
  split1 : ids1 = front1 ++ back1
  split2 : ids2 = front2 ++ back2
  same : front1.map CfgSubid.subid = front2.map CfgSubid.subid
  longest : ∀ a ∈ back1.head?, ∀ b ∈ back2.head?, a.subid ≠ b.subid

theorem common_split (ids1 ids2 : List CfgSubid) : ∃ front1 front2 back1 back2, Common ids1 ids2 front1 front2 back1 back2 ∧ front1.length = commonLen ids1 ids2 := by
  induction ids1 generalizing ids2 with
  | nil => exact ⟨[],[],[],ids2,⟨rfl,rfl,rfl,by simp⟩,rfl⟩
  | cons a ids1 ih =>
    cases ids2 with
    | nil => exact ⟨[],[],a :: ids1,[],⟨rfl,rfl,rfl,by simp⟩,rfl⟩
    | cons b ids2 =>
      rw [commonLen]
      by_cases equal : a.subid = b.subid
      · obtain ⟨front1,front2,back1,back2,common,length⟩ := ih ids2
        rw [if_pos equal]
        refine ⟨a :: front1,b :: front2,back1,back2,⟨?_,?_,?_,common.longest⟩,congrArg (·+1) length⟩
        · rw [common.split1,cons_append]
        · rw [common.split2,cons_append]
        · rw [map_cons,map_cons,equal,common.same]
      · rw [if_neg equal]
        exact ⟨[],[],_,_,⟨rfl,rfl,rfl,by simpa using equal⟩,rfl⟩
/-- Names of the second list under the same subids. -/
theorem zip_same {front1 front2 : List CfgSubid} (same : front1.map CfgSubid.subid = front2.map CfgSubid.subid) :
    List.zipWith (fun a b => (⟨a.subid,b.name⟩ : CfgSubid)) front1 front2 = front2 := by
  induction front1 generalizing front2 with
  | nil => rw [List.map_eq_nil_iff.mp same.symm]; rfl
  | cons a front1 ih =>
    cases front2 with
    | nil => cases same
    | cons b front2 =>
      obtain ⟨head,rest⟩ := cons.inj same
      rw [List.zipWith_cons_cons,ih rest,head]

/-- With an instance OID among the two: the common components under their names, and all others of the first OID with the name `*`. -/
theorem common_root_rest (inst : oid1.inst = true ∨ oid2.inst = true) : ∃ front1 front2 back1 back2,
    Common oid1.ids oid2.ids front1 front2 back1 back2 ∧
    cfg_oid_common_root oid1 oid2 = (⟨true,(if oid1.inst then front1 else front2) ++ back1.map fun a => {a with name := ['*']}⟩,oid1) := by
  obtain ⟨front1,front2,back1,back2,common,length⟩ := common_split oid1.ids oid2.ids
  have lengths : front1.length = front2.length := by simpa using congrArg List.length common.same
  refine ⟨front1,front2,back1,back2,common,?_⟩
  rw [cfg_oid_common_root]
  simp only [← length]
  rw [if_pos (by simpa using inst),common.split1,List.drop_left' rfl]
  congr 3
  by_cases first : oid1.inst = true
  · rw [if_pos first,if_pos first,common.split1,List.zipWith_append rfl,zip_same rfl,take_left]
  · rw [if_neg first,if_neg first,common.split2,List.zipWith_append lengths,zip_same common.same,lengths,take_left]
theorem common_root_rest_named : ∃ front1 front2 back1 back2,
    Common [rootId,⟨['a'],[]⟩,⟨['b'],[]⟩] [rootId,⟨['a'],['A']⟩] front1 front2 back1 back2 ∧
    cfg_oid_common_root ⟨false,[rootId,⟨['a'],[]⟩,⟨['b'],[]⟩]⟩ ⟨true,[rootId,⟨['a'],['A']⟩]⟩ =
      (⟨true,front2 ++ back1.map fun a => {a with name := ['*']}⟩,⟨false,[rootId,⟨['a'],[]⟩,⟨['b'],[]⟩]⟩) :=
  @common_root_rest ⟨false,_⟩ ⟨true,_⟩ (.inr rfl)
/-- More than the next component may follow. -/
theorem all_starred : ¬ ∀ oid1 oid2 : CfgOid, oid1.inst = true → ∀ front1 front2 back1 back2, Common oid1.ids oid2.ids front1 front2 back1 back2 →
    (cfg_oid_common_root oid1 oid2).1.ids = front1 ++ (back1.take 1).map fun a => {a with name := ['*']} := fun next =>
  absurd (next ⟨true,[rootId,⟨['a'],['A']⟩,⟨['b'],['B']⟩]⟩ ⟨true,[rootId]⟩ rfl [rootId] [rootId] _ _ ⟨rfl,rfl,rfl,by simp⟩) (by decide)
end
end TestEnvironment.Configurator
