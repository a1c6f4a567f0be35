import TestEnvironment.Configurator.Handles

/-!
What `cfg_db_find_pattern` finds: the entities whose OIDs match the pattern, where a star stands for any text; and where it finds more.
-/
namespace TestEnvironment.Configurator
open Lib

section
variable {pattern head segment p s str : CStr}

/-- A star stands for any text, another character for itself. -/
inductive Stands : CStr → CStr → Prop
  | nil : Stands [] []
  | star (mid : CStr) {p s : CStr} : Stands p s → Stands ('*' :: p) (mid ++ s)
  | char {c : Char} {p s : CStr} : c ≠ '*' → Stands p s → Stands (c :: p) (c :: s)

theorem stands_plain (plain : '*' ∉ head) : Stands (head ++ p) s ↔ ∃ t, s = head ++ t ∧ Stands p t := by
  induction head generalizing s with
  | nil => simp
  | cons c head ih =>
    rw [mem_cons,not_or] at plain
    constructor
    · intro stands
      cases stands with
      | star => exact absurd rfl plain.1
      | char _ rest =>
        obtain ⟨t,rfl,stands⟩ := (ih plain.2).mp rest
        exact ⟨t,rfl,stands⟩
    · rintro ⟨t,rfl,rest⟩
      exact .char (Ne.symm plain.1) ((ih plain.2).mpr ⟨t,rfl,rest⟩)
theorem stands_whole (plain : '*' ∉ segment) : Stands segment s ↔ s = segment := by
  have whole := @stands_plain segment [] s plain
  rw [append_nil] at whole
  rw [whole]
  constructor
  · rintro ⟨t,rfl,⟨⟩⟩
    exact append_nil _
  · rintro rfl
    exact ⟨[],(append_nil _).symm,.nil⟩
/-- The comparison in front of the star and behind it, with the guard on the length, finds what the pattern stands for. -/
theorem pattern_match_iff (one : pattern.count '*' ≤ 1) : pattern_match pattern str = true ↔ Stands pattern str := by
  rw [pattern_match]
  cases star : strchr '*' pattern with
  | none => rw [stands_whole (strchr_none.mp star),decide_eq_true_eq,eq_comm]
  | some cut =>
    obtain ⟨head,segment⟩ := cut
    obtain ⟨rfl,before⟩ := strchr_spec star
    have behind : '*' ∉ segment := by
      dsimp only at one
      rw [List.count_append,List.count_cons_self] at one
      exact List.count_eq_zero.mp (by omega)
    rw [stands_plain before]
    dsimp only
    constructor
    · intro matches'
      by_cases short : str.length < segment.length+head.length
      · simp [short] at matches'
      by_cases front : startsWith head str = true
      · obtain ⟨rest,rfl⟩ := startsWith_iff.mp front
        rw [length_append] at short
        simp only [length_append,short,front,if_false,Bool.not_true,false_eq_true,decide_eq_true_eq] at matches'
        rw [List.drop_append,drop_of_length_le (by omega),nil_append,
          show head.length+rest.length-segment.length-head.length = rest.length-segment.length by omega] at matches'
        refine ⟨rest,rfl,?_⟩
        rw [← take_append_drop (rest.length-segment.length) rest,matches']
        exact .star _ ((stands_whole behind).mpr rfl)
      · simp [short,front] at matches'
    · rintro ⟨t,rfl,stands⟩
      cases stands with
      | char other _ => exact absurd rfl other
      | star mid rest =>
        have front : startsWith head (head ++ (mid ++ segment)) = true := startsWith_iff.mpr ⟨_,rfl⟩
        rw [(stands_whole behind).mp rest,if_neg (by simp; omega),front,← append_assoc,List.drop_left' (by simp; omega)]
        simp
theorem matchPart_iff (one : pattern.count '*' ≤ 1) : matchPart pattern str = true ↔ pattern.head? = some '*' ∨ Stands pattern str := by
  rw [matchPart,decide_eq_true_eq,pattern_match_iff one]
end

section
variable {db : Db} {kids okids : Nat → List Nat} {handles : List Nat} {inst : Bool} {p o : CfgOid} {pattern : CStr}

/-- The entries of a table are the live cells of a heap, with different handles. -/
def Covers {α : Type} (h : Heap α) (entry : α → Nat × CStr) (table : List (Option Nat)) : Prop :=
  ∃ entries, entriesOf h entry table = some entries ∧ (∀ e, e ∈ entries ↔ ∃ a x, h.get a = some x ∧ entry x = e) ∧ (entries.map Prod.fst).Nodup
theorem listed_of_slots {α : Type} {h : Heap α} {entry : α → Nat × CStr} {table : List (Option Nat)}
    (slots : ∀ {j a : Nat}, (table[j]?).join = some a → ∃ x, h.get a = some x) (all : ∀ {a x}, h.get a = some x → ∃ j : Nat, (table[j]?).join = some a)
    (apart : ∀ {j k a b : Nat} {x y}, (table[j]?).join = some a → (table[k]?).join = some b → h.get a = some x → h.get b = some y →
      (entry x).1 = (entry y).1 → j = k) : Covers h entry table := by
  have listed {a : Nat} : a ∈ table.filterMap id ↔ ∃ j : Nat, (table[j]?).join = some a := by
    rw [List.mem_filterMap]
    simp only [id,exists_eq_right,List.mem_iff_getElem?,Option.join_eq_some_iff]
  obtain ⟨entries,results⟩ : ∃ entries, entriesOf h entry table = some entries := mapM_total fun a member => by
    obtain ⟨j,slot⟩ := listed.mp member
    obtain ⟨x,found⟩ := slots slot
    exact ⟨entry x,by rw [found]; rfl⟩
  refine ⟨entries,results,fun e => ⟨fun member => ?_,?_⟩,?_⟩
  · obtain ⟨a,-,found⟩ := mapM_back results member
    obtain ⟨x,there,same⟩ := of_map found
    exact ⟨a,x,there,same⟩
  · rintro ⟨a,x,there,rfl⟩
    obtain ⟨e,found,member⟩ := mapM_mem results (listed.mpr (all there))
    rw [there,map_some,some_inj] at found
    exact found ▸ member
  · have different : (table.filterMap id).Pairwise fun a b => ∀ x y, h.get a = some x → h.get b = some y → (entry x).1 ≠ (entry y).1 := by
      rw [List.pairwise_filterMap,List.pairwise_iff_getElem]
      intro j k inside inside' less a first b second x y one two same
      exact ne_of_lt less (apart (by simpa [inside] using first) (by simpa [inside'] using second) one two same)
    have some' : (entries.map some).Pairwise fun e e' => ∀ x y, e = some x → e' = some y → x.1 ≠ y.1 := by
      rw [← mapM_results results,pairwise_map]
      refine different.imp fun apart x y one two => ?_
      obtain ⟨_,first,rfl⟩ := of_map one
      obtain ⟨_,second,rfl⟩ := of_map two
      exact apart _ _ first second
    rw [pairwise_map] at some'
    rw [List.Nodup,pairwise_map]
    exact some'.imp fun apart => apart _ _ rfl rfl
theorem insts_tabled (tree : InstTree db kids) : Covers db.insts (fun x => (x.handle,x.oid)) db.cfg_all_inst := by
  obtain ⟨r,root,-,-,-,number,-⟩ := tree.root
  have apart {a b : Nat} {x y : CfgInstance} (top : a = cfg_inst_root) (first : db.insts.get a = some x) (second : db.insts.get b = some y)
      (other : b ≠ cfg_inst_root) : x.handle ≠ y.handle := by
    intro same
    have high := (tree.number second other).1
    rw [top,root,some_inj] at first
    rw [← same,← first,number] at high
    omega
  refine listed_of_slots (fun {j a} slot => ?_) (fun {a x} found => ?_) fun {j k a b x y} one two first second same => ?_
  · obtain ⟨rfl,-⟩ | ⟨-,x,found,-⟩ := tree.slot slot
    · exact ⟨r,root⟩
    · exact ⟨x,found⟩
  · by_cases top : a = cfg_inst_root
    · exact ⟨0,top ▸ tree.first⟩
    · exact ⟨_,(tree.entry found top).2⟩
  · obtain ⟨top,zero⟩ | ⟨other,_,found,index⟩ := tree.slot one <;> obtain ⟨top',zero'⟩ | ⟨other',_,found',index'⟩ := tree.slot two
    · rw [zero,zero']
    · exact absurd same (apart top first second other')
    · exact absurd same.symm (apart top' second first other)
    · rw [← index,← index',← some.inj (first.symm.trans found),← some.inj (second.symm.trans found')]
      exact congrArg handleIndex same
theorem objs_tabled (tree : ObjTree db kids) : Covers db.objs (fun x => (x.handle,x.oid)) db.cfg_all_obj := by
  refine listed_of_slots (fun slot => ?_) (fun found => ⟨_,(tree.entry found).2⟩) fun one two first second same => ?_
  · obtain ⟨o,found,-⟩ := tree.slot slot
    exact ⟨o,found⟩
  · obtain ⟨_,found,index⟩ := tree.slot one
    obtain ⟨_,found',index'⟩ := tree.slot two
    rw [← index,← index',← some.inj (first.symm.trans found),← some.inj (second.symm.trans found')]
    exact same
/-- An object or an instance of the database, by its handle and its OID. -/
def Entity (db : Db) (inst : Bool) (e : Nat × CStr) : Prop :=
  if inst then ∃ a x, db.insts.get a = some x ∧ (x.handle,x.oid) = e else ∃ a x, db.objs.get a = some x ∧ (x.handle,x.oid) = e
theorem search_spec (trees : Trees db) (converted : cfg_convert_oid_str pattern = some p) : ∃ entries, (∀ e, e ∈ entries ↔ Entity db p.inst e) ∧
    (entries.map Prod.fst).Nodup ∧ cfg_db_find_pattern db pattern = some (match matchEntries (some p) p.inst entries with
      | none => .error ⟨.cs,.ENOMEM⟩
      | some handles => .ok handles) := by
  obtain ⟨okids,kids,objTree,tree⟩ := trees
  have notStar : pattern ≠ "*".toList ∧ pattern ≠ "*:*".toList := by constructor <;> rintro rfl <;> cases converted
  obtain ⟨insts,instsTabled,instsAre,instsApart⟩ := insts_tabled tree
  obtain ⟨objs,objsTabled,objsAre,objsApart⟩ := objs_tabled objTree
  rw [cfg_db_find_pattern]
  simp only [notStar.1,notStar.2,if_false,converted,map_some,instsTabled,objsTabled]
  cases p.inst with
  | true =>
    refine ⟨insts,instsAre,instsApart,?_⟩
    rw [if_pos rfl,bind_eq_bind,bind_some]
    cases matchEntries (some p) true insts <;> rfl
  | false =>
    refine ⟨objs,objsAre,objsApart,?_⟩
    rw [if_neg (by decide),bind_eq_bind,bind_some]
    cases matchEntries (some p) false objs <;> rfl
/-- The handles that the loop collects. -/
theorem matchEntries_exact {entries : List (Nat × CStr)} (matched : matchEntries (some p) inst entries = some handles) :
    handles.Sublist (entries.map Prod.fst) ∧ (∀ e ∈ entries, ∃ o, cfg_convert_oid_str e.2 = some o) ∧
      ∀ handle, handle ∈ handles ↔ ∃ e ∈ entries, ∃ o, e.1 = handle ∧ cfg_convert_oid_str e.2 = some o ∧ matchIds inst p.ids o.ids = true := by
  induction entries generalizing handles with
  | nil =>
    cases matched
    simp
  | cons e entries ih =>
    obtain ⟨handle,oid⟩ := e
    rw [matchEntries] at matched
    cases converted : cfg_convert_oid_str oid with
    | none => simp [converted] at matched
    | some o =>
      simp only [converted] at matched
      obtain ⟨rest,later,rfl⟩ := of_map matched
      obtain ⟨sub,each,exact'⟩ := ih later
      refine ⟨?_,by simpa [converted] using each,fun other => ?_⟩
      · split_ifs
        · exact sub.cons_cons handle
        · exact sub.cons handle
      · have own : (∃ o', handle = other ∧ cfg_convert_oid_str oid = some o' ∧ matchIds inst p.ids o'.ids = true) ↔
            handle = other ∧ matchIds inst p.ids o.ids = true := by simp [converted]
        rw [List.exists_mem_cons_iff,← exact' other,own]
        by_cases hit : matchIds inst p.ids o.ids = true
        · rw [if_pos hit,mem_cons,and_iff_left hit,eq_comm]
        · rw [if_neg hit,or_iff_right fun both => hit both.2]
/-- The OIDs match, part by part. -/
def PartsMatch (part : CStr → CStr → Prop) (p o : CfgOid) : Prop :=
  List.Forall₂ (fun i j => part i.subid j.subid ∧ (p.inst = true → part i.name j.name)) p.ids o.ids
/-- No part of the pattern has two stars. -/
def Starred (p : CfgOid) : Prop := ∀ i ∈ p.ids, i.subid.count '*' ≤ 1 ∧ i.name.count '*' ≤ 1
/-- A star in front stands for any text, whatever is behind it. -/
def Loosely (pattern str : CStr) : Prop := pattern.head? = some '*' ∨ Stands pattern str
theorem matchIds_iff (starred : Starred p) : matchIds p.inst p.ids o.ids = true ↔ PartsMatch Loosely p o := by
  rw [matchIds,PartsMatch,List.forall₂_iff_zip,and_eq_true,decide_eq_true_eq,eq_comm,all_eq_true]
  refine and_congr_right fun _ => ⟨fun all i j member => ?_,fun all pair member => ?_⟩
  · obtain ⟨one,one'⟩ := starred i (List.of_mem_zip member).1
    have both := all (i,j) member
    rw [and_eq_true,matchPart_iff one,or_eq_true,matchPart_iff one'] at both
    exact both.imp_right fun named kind => named.resolve_left (by simp [kind])
  · obtain ⟨i,j⟩ := pair
    obtain ⟨one,one'⟩ := starred i (List.of_mem_zip member).1
    have both := all member
    rw [and_eq_true,matchPart_iff one,or_eq_true,matchPart_iff one']
    cases kind : p.inst with
    | true => exact ⟨both.1,.inr (both.2 kind)⟩
    | false => exact ⟨both.1,.inl rfl⟩

/-- The handles are found of just the entities whose OIDs match the pattern, each once. -/
def FindsExactly (db : Db) (pattern : CStr) (p : CfgOid) : Prop :=
  ∃ handles, cfg_db_find_pattern db pattern = some (.ok handles) ∧ handles.Nodup ∧
    ∀ handle, handle ∈ handles ↔ ∃ e o, Entity db p.inst e ∧ e.1 = handle ∧ cfg_convert_oid_str e.2 = some o ∧ PartsMatch Stands p o
variable [Libc]
/-- The search is exact just if the OIDs of all objects, or of all instances, convert, and none matches but for what is behind a star in front
of a part. -/
theorem find_pattern_exact (reached : DbReach anyStep db) (converted : cfg_convert_oid_str pattern = some p) (starred : Starred p) :
    FindsExactly db pattern p ↔ ∀ e, Entity db p.inst e → ∃ o, cfg_convert_oid_str e.2 = some o ∧ (PartsMatch Loosely p o → PartsMatch Stands p o) := by
  obtain ⟨entries,members,nodup,search⟩ := search_spec reached.trees converted
  have loose {o : CfgOid} : PartsMatch Stands p o → PartsMatch Loosely p o :=
    List.Forall₂.imp fun _ _ both => ⟨.inr both.1,fun kind => .inr (both.2 kind)⟩
  constructor
  · rintro ⟨handles,found,-,all⟩ e entity
    rw [search] at found
    cases matched : matchEntries (some p) p.inst entries with
    | none => simp [matched] at found
    | some handles' =>
      simp only [matched,some_inj,Except.ok.injEq] at found
      subst found
      obtain ⟨-,each,exact'⟩ := matchEntries_exact matched
      obtain ⟨o,convert⟩ := each e ((members e).mpr entity)
      refine ⟨o,convert,fun parts => ?_⟩
      obtain ⟨e',o',entity',same,convert',parts'⟩ := (all e.1).mp ((exact' e.1).mpr ⟨e,(members e).mpr entity,o,rfl,convert,(matchIds_iff starred).mpr parts⟩)
      have twin : e' = e := List.inj_on_of_nodup_map nodup ((members e').mpr entity') ((members e).mpr entity) same
      rw [twin,convert,some_inj] at convert'
      exact convert' ▸ parts'
  · intro exact'
    obtain ⟨handles,matched⟩ : ∃ handles, matchEntries (some p) p.inst entries = some handles :=
      matchEntries_total fun e member => (exact' e ((members e).mp member)).imp fun _ => And.left
    obtain ⟨sub,-,found⟩ := matchEntries_exact matched
    refine ⟨handles,by rw [search,matched],sub.nodup nodup,fun handle => ?_⟩
    rw [found]
    constructor
    · rintro ⟨e,member,o,same,convert,parts⟩
      obtain ⟨o',convert',tight⟩ := exact' e ((members e).mp member)
      obtain rfl := some.inj (convert.symm.trans convert')
      exact ⟨e,o,(members e).mp member,same,convert,tight ((matchIds_iff starred).mp parts)⟩
    · rintro ⟨e,o,entity,same,convert,parts⟩
      exact ⟨e,(members e).mpr entity,o,same,convert,(matchIds_iff starred).mpr (loose parts)⟩
omit [Libc] in
theorem start_agent : Entity startDb false (1,"/agent".toList) ∧ ∀ e, Entity startDb false e → e.1 = 1 → e = (1,"/agent".toList) := by
  obtain ⟨_,_,objTree,-⟩ := @DbReach.trees plainLibc _ _ (@startDb_reach plainLibc anyStep)
  obtain ⟨entries,listed,are,-⟩ := objs_tabled objTree
  have known : (1,"/agent".toList) ∈ entries ∧ ∀ e ∈ entries, e.1 = 1 → e = (1,"/agent".toList) := by
    have inside : (entriesOf startDb.objs (fun x => (x.handle,x.oid)) startDb.cfg_all_obj).any (fun entries =>
      decide ((1,"/agent".toList) ∈ entries ∧ ∀ e ∈ entries, e.1 = 1 → e = (1,"/agent".toList))) = true := by decide +kernel
    simpa [listed] using inside
  exact ⟨(are _).mp known.1,fun e entity => known.2 e ((are e).mpr entity)⟩
def zzPattern : CfgOid := ⟨false,[rootId,⟨"*zz".toList,[]⟩]⟩
omit [Libc] in
theorem agent_differs {o : CfgOid} (converted : cfg_convert_oid_str "/agent".toList = some o) :
    PartsMatch Loosely zzPattern o ∧ ¬PartsMatch Stands zzPattern o := by
  have known : cfg_convert_oid_str "/agent".toList = some ⟨false,[rootId,⟨"agent".toList,[]⟩]⟩ := by decide +kernel
  obtain rfl := some.inj (converted.symm.trans known)
  refine ⟨.cons ⟨.inr .nil,nofun⟩ (.cons ⟨.inl rfl,nofun⟩ .nil),fun parts => ?_⟩
  obtain ⟨-,rest⟩ := List.forall₂_cons.mp parts
  have found := (pattern_match_iff (by decide)).mpr (List.forall₂_cons.mp rest).1.1
  revert found
  decide
omit [Libc] in
theorem find_pattern_exact_zz : ¬FindsExactly startDb "/*zz".toList zzPattern := by
  intro exact'
  obtain ⟨o,converted,tight⟩ := (@find_pattern_exact _ _ _ plainLibc (@startDb_reach plainLibc _) (by decide +kernel) (by unfold Starred; decide)).mp exact' _
    start_agent.1
  exact (agent_differs converted).2 (tight (agent_differs converted).1)
omit [Libc] in
theorem star_in_front_loose : ∃ db pattern p, cfg_convert_oid_str pattern = some p ∧ Starred p ∧ ¬FindsExactly db pattern p := by
  refine ⟨startDb,"/*zz".toList,zzPattern,by decide +kernel,by unfold Starred; decide,?_⟩
  rintro ⟨handles,found,-,all⟩
  have known : cfg_db_find_pattern startDb "/*zz".toList = some (.ok [1,6]) := by decide +kernel
  obtain rfl := ok.inj (some.inj (found.symm.trans known))
  obtain ⟨e,o,entity,number,converted,parts⟩ := (all 1).mp mem_cons_self
  obtain rfl := start_agent.2 e entity number
  exact (agent_differs converted).2 parts
end
end TestEnvironment.Configurator
