import TestEnvironment.Rgt.LogPlaces
import TestEnvironment.Rgt.FragsList

/-!
The tree of the nodes of an index, and the gist log: it visits the nodes in the order of the tree and
has a line of `frags_list` for every visit.
-/
namespace TestEnvironment.Rgt
open Lib IndexRecord

section
variable (records : List IndexRecord)

def IndexRecord.isStart (record : IndexRecord) : Bool := record.msg_type ≠ "REGULAR".toList ∧ record.msg_type ≠ "END".toList
def IndexRecord.isEnd (record : IndexRecord) : Bool := record.msg_type = "END".toList
/-- The parent of a node; the root has none. -/
def parentIn (n : Nat) : Option Nat :=
  match records.find? fun record => record.isStart ∧ record.node_id = (n : Int) with
  | some record => if n = 0 then none else some record.parent_id.toNat
  | none => none
def endedIn (n : Nat) : Bool := records.any fun record => record.isEnd ∧ record.node_id = (n : Int)
/-- A number above those of all nodes. -/
def bound : List IndexRecord → Nat
  | [] => 0
  | record :: records => if record.isStart then max (record.node_id.toNat+1) (bound records) else bound records
/-- The nodes of the log as a tree, from the root on. -/
def logVisits : List Visit := visits (parentIn records) (bound records) (endedIn records) (bound records) 0
end

section
variable {before records : List IndexRecord} {record : IndexRecord} {n m : Nat} {parent parent' node : Int}

theorem isStart_iff : record.isStart = true ↔ record.IsStart := by
  rw [isStart,decide_eq_true_eq]
  rfl
theorem isEnd_iff : record.isEnd = true ↔ record.IsEnd := by
  rw [isEnd,decide_eq_true_eq]
  rfl
theorem endedIn_iff : endedIn records n = true ↔ Ended records n := by
  rw [endedIn,any_eq_true]
  constructor
  · rintro ⟨record,member,both⟩
    obtain ⟨ends,node⟩ := decide_eq_true_eq.mp both
    exact ⟨record,member,isEnd_iff.mp ends,node⟩
  · rintro ⟨record,member,ends,node⟩
    exact ⟨record,member,decide_eq_true_eq.mpr ⟨isEnd_iff.mpr ends,node⟩⟩
theorem Started.lt_bound (started : Started records n) : n < bound records := by
  obtain ⟨record,member,start,node⟩ := started
  induction records with
  | nil => cases member
  | cons first records ih =>
    rw [bound]
    obtain rfl | later := mem_cons.mp member
    · rw [if_pos (isStart_iff.mpr start)]
      omega
    · have := ih later
      split_ifs <;> omega
theorem bound_le {count : Nat} (all : ∀ record ∈ records, record.IsStart → record.node_id.toNat < count) : bound records ≤ count := by
  induction records with
  | nil => exact Nat.zero_le count
  | cons record records ih =>
    have later := ih fun other member => all other (mem_cons_of_mem record member)
    rw [bound]
    split_ifs with start
    · have here := all record mem_cons_self (isStart_iff.mp start)
      omega
    · exact later
/-- A node starts under one parent only. -/
theorem one_start (nested : WellNested before records)
    (so_far : ∀ parent parent' node, StartsUnder before parent node → StartsUnder before parent' node → parent = parent') :
    ∀ parent parent' node, StartsUnder (before ++ records) parent node → StartsUnder (before ++ records) parent' node → parent = parent' := by
  induction records generalizing before with
  | nil => rwa [append_nil]
  | cons record records ih =>
    obtain ⟨fits,nested⟩ := nested
    have next := @ih (before ++ [record]) nested ?_
    · rwa [append_assoc,singleton_append] at next
    · rintro parent parent' node ⟨first,member,start,node_eq,parent_eq⟩ ⟨second,member',start',node_eq',parent_eq'⟩
      obtain old | new := mem_append.mp member
      · obtain old' | new' := mem_append.mp member'
        · exact so_far parent parent' node ⟨first,old,start,node_eq,parent_eq⟩ ⟨second,old',start',node_eq',parent_eq'⟩
        · rw [mem_singleton.mp new'] at start' node_eq'
          exact absurd ⟨first,old,start,node_eq.trans node_eq'.symm⟩ (fits.start start').1
      · rw [mem_singleton.mp new] at start node_eq parent_eq
        obtain old' | new' := mem_append.mp member'
        · exact absurd ⟨second,old',start',node_eq'.trans node_eq.symm⟩ (fits.start start).1
        · grind
theorem parentIn_cases (found : parentIn records n = some m) : n ≠ 0 ∧ ∃ parent, StartsUnder records parent n ∧ m = parent.toNat := by
  rw [parentIn] at found
  split at found
  · rename_i record is_first
    split_ifs at found with zero
    obtain rfl := some.inj found
    have here := find?_some is_first
    obtain ⟨starts,node⟩ := decide_eq_true_eq.mp here
    exact ⟨zero,record.parent_id,⟨record,mem_of_find?_eq_some is_first,isStart_iff.mp starts,node,rfl⟩,rfl⟩
  · cases found
theorem parentIn_of (unique : ∀ parent parent' node, StartsUnder records parent node → StartsUnder records parent' node → parent = parent')
    (under : StartsUnder records parent n) (other : n ≠ 0) : parentIn records n = some parent.toNat := by
  obtain ⟨record,member,start,node,rfl⟩ := under
  rw [parentIn]
  split
  · rename_i first is_first
    have here := find?_some is_first
    obtain ⟨starts,is_node⟩ := decide_eq_true_eq.mp here
    rw [if_neg other,unique first.parent_id record.parent_id n
      ⟨first,mem_of_find?_eq_some is_first,isStart_iff.mp starts,is_node,rfl⟩ ⟨record,member,start,node,rfl⟩]
  · rename_i no_record
    have := find?_eq_none.mp no_record record member
    rw [decide_eq_true_eq] at this
    exact absurd ⟨isStart_iff.mpr start,node⟩ this
theorem parentIn_smaller (rooted : SplitState.Rooted records) (k p : Nat) (found : parentIn records k = some p) : p < k := by
  obtain ⟨other,parent,under,rfl⟩ := parentIn_cases found
  obtain ⟨-,⟨root,-⟩ | ⟨nonneg,less,-⟩⟩ := rooted parent k under
  · exact absurd (Int.ofNat.inj root) other
  · omega
/-- Every started node is below the root. -/
theorem started_under (unique : ∀ parent parent' node, StartsUnder records parent node → StartsUnder records parent' node → parent = parent')
    (rooted : SplitState.Rooted records) (started : Started records n) : UnderNode (parentIn records) n 0 := by
  induction n using Nat.strong_induction_on with
  | _ n ih =>
    obtain ⟨record,member,start,node⟩ := started
    have under : StartsUnder records record.parent_id n := ⟨record,member,start,node,rfl⟩
    by_cases zero : n = 0
    · rw [zero]
      exact .refl
    · obtain ⟨-,⟨root,-⟩ | ⟨nonneg,less,parent_started⟩⟩ := rooted _ _ under
      · exact absurd (Int.ofNat.inj root) zero
      · have cast : ((record.parent_id.toNat : Nat) : Int) = record.parent_id := Int.toNat_of_nonneg nonneg
        have above := ih record.parent_id.toNat (by omega) (by rw [cast]; exact parent_started)
        exact .head (parentIn_of unique under zero) above
/-- What is visited has started. -/
theorem visited_started (started : Started records 0)
    (visited : n ∈ Visit.entered (logVisits records)) : Started records n := by
  have under := entered_under visited
  rcases Relation.ReflTransGen.cases_head under with rfl | ⟨p,step,-⟩
  · exact started
  · obtain ⟨-,parent,⟨record,member,start,node,-⟩,-⟩ := parentIn_cases step
    exact ⟨record,member,start,node⟩
theorem root_started (rooted : SplitState.Rooted records) (started : Started records n) : Started records 0 := by
  induction n using Nat.strong_induction_on with
  | _ n ih =>
    obtain ⟨record,member,start,node⟩ := started
    obtain ⟨-,⟨root,-⟩ | ⟨nonneg,less,parent_started⟩⟩ := rooted record.parent_id n ⟨record,member,start,node,rfl⟩
    · exact ⟨record,member,start,node.trans root⟩
    · have cast : ((record.parent_id.toNat : Nat) : Int) = record.parent_id := Int.toNat_of_nonneg nonneg
      exact ih record.parent_id.toNat (by omega) (by rw [cast]; exact parent_started)
/-- The visits enter every started node once and leave every ended node once. -/
theorem visits_complete (nested : WellNested [] records) (rooted : SplitState.Rooted records) (target : Started records m) :
    (Visit.entered (logVisits records)).Nodup ∧ (∀ n : Nat, n ∈ Visit.entered (logVisits records) ↔ Started records n) ∧
    (Visit.left (logVisits records)).Nodup ∧ ∀ n : Nat, n ∈ Visit.left (logVisits records) ↔ Started records n ∧ Ended records n := by
  have smaller := parentIn_smaller rooted
  have unique := one_start nested (by rintro _ _ _ ⟨_,member,-⟩; cases member)
  rw [nil_append] at unique
  have entered : ∀ n : Nat, n ∈ Visit.entered (logVisits records) ↔ Started records n := by
    intro n
    constructor
    · exact visited_started (root_started rooted target)
    · intro started
      exact under_entered smaller (started_under unique rooted started) started.lt_bound (by omega)
  refine ⟨entered_nodup smaller _ _,entered,left_nodup smaller _ _,?_⟩
  intro n
  constructor
  · intro left
    obtain ⟨there,ended⟩ := left_entered left
    exact ⟨(entered n).mp there,endedIn_iff.mp ended⟩
  · rintro ⟨started,ended⟩
    exact entered_left ((entered n).mpr started) (endedIn_iff.mpr ended)
end

section
variable {s : SplitState} {c : Char} {t : CStr} {n depth seq frag_len : Nat}

theorem scanInt_text (z : Int) (stop : isdigit c = false) : scanInt (intText z ++ c :: t) = some (z,c :: t) := by
  have number := fun n : Nat => scanNumber_text (t := t) n stop
  rw [intText]
  split_ifs with negative
  · rw [scanInt,cons_append,dropWhile_cons_of_neg (by decide)]
    simp only [number,map_some]
    rw [show -(z.natAbs : Int) = z by omega]
  · rcases digits : natText z.natAbs with _ | ⟨d,ds⟩
    · exact absurd digits (natText_nonempty _)
    · have digit := natText_digits z.natAbs d (by rw [digits]; exact mem_cons_self)
      have space := digit_not_space digit
      have no_minus : d ≠ '-' := fun same => by rw [same] at digit; exact absurd digit (by decide)
      rw [scanInt,cons_append,dropWhile_cons_of_neg (by rw [space]; decide)]
      split
      · rename_i minus
        exact absurd (cons.inj minus).1 no_minus
      · grind
theorem scanInt_space (s : CStr) : scanInt (' ' :: s) = scanInt s := by rw [scanInt,scanInt,dropWhile_cons_of_pos (by decide)]
/-- The fields of a line are read back. -/
theorem scanFields_text (count : Nat) (fields : List Int) :
    scanFields count (fields.flatMap (fun z => ' ' :: intText z) ++ ['\n']) = fields.take count := by
  induction fields generalizing count with
  | nil =>
    rcases count with _ | count
    · rfl
    · rfl
  | cons z fields ih =>
    rcases count with _ | count
    · rfl
    · have field : ∃ c t, fields.flatMap (fun z => ' ' :: intText z) ++ ['\n'] = c :: t ∧ isdigit c = false := by
        rcases fields with _ | ⟨z',fields⟩
        · exact ⟨_,_,rfl,by decide⟩
        · exact ⟨_,_,rfl,by decide⟩
      obtain ⟨c,t,behind,stop⟩ := field
      have later := ih count
      rw [behind] at later
      rw [scanFields,flatMap_cons,append_assoc,behind,cons_append,scanInt_space,scanInt_text z stop,List.take_succ_cons]
      simp only [later]

variable (s n depth seq frag_len) in
/-- What a line tells the merge. -/
def startRec : FragRec :=
  { frag_name := intText n ++ "_frag".toList, start_frag := true, parent_id := toUnsigned (s.nodes n).parent, test_id := toUnsigned n,
    tin := toUnsigned (s.nodes n).tin, depth := toUnsigned depth, seq := toUnsigned seq, length := frag_len,
    start_len := (s.nodes n).start_len, frags_cnt := (s.nodes n).inner_frags_cnt, sniff_logs := (s.nodes n).sniff_logs }
variable (s n depth seq frag_len) in
def endRec : FragRec :=
  { frag_name := intText n ++ "_frag".toList, start_frag := false, parent_id := toUnsigned (s.nodes n).parent, test_id := toUnsigned n,
    tin := toUnsigned (s.nodes n).tin, depth := toUnsigned depth, seq := toUnsigned seq, length := frag_len,
    start_len := 0, frags_cnt := if (s.nodes n).after_frag then 1 else 0, sniff_logs := false }
theorem frag_suffix (n : Int) (kind : FragmentType) : SplitState.fragName n kind 0 = intText n ++ ("_frag_".toList ++ match kind with
    | .FRAG_START => "start".toList
    | .FRAG_INNER => "inner_".toList ++ natText 0
    | .FRAG_END => "end".toList
    | .FRAG_AFTER => "after".toList) := by
  cases kind <;> simp only [SplitState.fragName,append_assoc]
theorem lineText_scanned (name : CStr) (word : Word name) (z : Int) (fields : List Int) :
    scanWord (lineText name (z :: fields)) = some (name,(z :: fields).flatMap (fun z => ' ' :: intText z) ++ ['\n']) := by
  rw [lineText,append_assoc]
  exact scanWord_text word (by decide)
theorem startLine_parsed : rgt_parse_frag_rec (startLine s n depth seq frag_len) = some (startRec s n depth seq frag_len) := by
  have no_bar := intText_plain (c := '_') (by decide) (by decide) n
  have no_end : strstr "_end".toList (SplitState.fragName n .FRAG_START 0) = none := by
    rw [frag_suffix]
    exact strstr_absent no_bar _
  have start : strstr "_start".toList (SplitState.fragName n .FRAG_START 0) = some (intText n ++ "_frag".toList,[]) := by
    rw [frag_suffix]
    exact strstr_absent no_bar _
  have id : scanInt (SplitState.fragName n .FRAG_START 0) = some ((n : Int),"_frag_start".toList) := by
    rw [frag_suffix]
    exact scanInt_text n (by decide)
  rw [startLine,rgt_parse_frag_rec,lineText_scanned _ (fragName_word _ _ _)]
  simp only [bind_eq_bind,bind_some,scanFields_text,id,suffixFields,no_end,start]
  rcases sniff : (s.nodes n).sniff_logs <;> simp [startRec,toUint64,sniff]
theorem endLine_parsed : rgt_parse_frag_rec (endLine s n depth seq frag_len) = some (endRec s n depth seq frag_len) := by
  have no_bar := intText_plain (c := '_') (by decide) (by decide) n
  have ends : strstr "_end".toList (SplitState.fragName n .FRAG_END 0) = some (intText n ++ "_frag".toList,[]) := by
    rw [frag_suffix]
    exact strstr_absent no_bar _
  have id : scanInt (SplitState.fragName n .FRAG_END 0) = some ((n : Int),"_frag_end".toList) := by
    rw [frag_suffix]
    exact scanInt_text n (by decide)
  rw [endLine,rgt_parse_frag_rec,lineText_scanned _ (fragName_word _ _ _)]
  simp only [bind_eq_bind,bind_some,scanFields_text,id,suffixFields,ends]
  rcases after : (s.nodes n).after_frag <;> simp [endRec,toUint64,after]
end

section
variable (s : SplitState)

/-- What the gist log has for a visit. -/
def gistOf : Visit → Bytes
  | .enter n => (s.files (SplitState.fragName n .FRAG_START 0)).getD []
  | .leave n => (s.files (SplitState.fragName n .FRAG_END 0)).getD []
/-- A line of the list is about a visit. -/
def LineOf (visit : Visit) (line : CStr) : Prop := ∃ depth seq, line = match visit with
  | .enter n => startLine s n depth seq (gistOf s visit).length
  | .leave n => endLine s n depth seq (gistOf s visit).length
/-- Printing adds these visits. -/
def Printed (p : PrintState) (printed : List Visit) (p' : PrintState) : Prop :=
  p'.f_raw_gist = p.f_raw_gist ++ printed.flatMap (gistOf s) ∧
    ∃ lines, p'.f_frags_list = p.f_frags_list ++ lines ∧ List.Forall₂ (LineOf s) printed lines
variable {s} {p p' p'' : PrintState} {raw : Bytes} {records : List IndexRecord} {copies : List Copy} {n : Nat}

theorem Printed.refl (p : PrintState) : Printed s p [] p := ⟨by rw [List.flatMap_nil,append_nil],[],by rw [append_nil],.nil⟩
theorem Printed.trans {first second : List Visit} (printed : Printed s p first p') (printed' : Printed s p' second p'') :
    Printed s p (first ++ second) p'' := by
  obtain ⟨gist,lines,list,each⟩ := printed
  obtain ⟨gist',lines',list',each'⟩ := printed'
  refine ⟨by rw [gist',gist,flatMap_append,append_assoc],lines ++ lines',by rw [list',list,append_assoc],?_⟩
  exact List.rel_append each each'
theorem Printed.add {visit : Visit} {line : CStr} (of : LineOf s visit line) : Printed s p [visit] (p.add (gistOf s visit) line) :=
  ⟨by rw [flatMap_cons,List.flatMap_nil,append_nil]; rfl,[line],rfl,.cons of .nil⟩

variable (kept : SplitState.Kept raw records copies s) (rooted : SplitState.Rooted records)
  (unique : ∀ parent parent' node, StartsUnder records parent node → StartsUnder records parent' node → parent = parent')
include kept rooted unique

/-- The array of nodes has the tree of the index. -/
theorem parent_iff {i : Nat} (other : i ≠ 0) : (s.nodes i).parent = n ↔ parentIn records i = some n := by
  by_cases started : Started records i
  · obtain ⟨-,-,under⟩ := kept.start.node i started
    rw [parentIn_of unique under other,some_inj]
    obtain ⟨-,⟨root,-⟩ | ⟨nonneg,-,-⟩⟩ := rooted _ _ under
    · exact absurd (Int.ofNat.inj root) other
    · omega
  · rw [kept.start.fresh i started]
    constructor
    · intro same
      omega
    · intro found
      obtain ⟨-,parent,⟨record,member,start,node,-⟩,-⟩ := parentIn_cases found
      exact absurd ⟨record,member,start,node⟩ started
omit rooted unique in
theorem parentIn_within {i : Nat} (found : parentIn records i = some n) : Started records i ∧ i < s.nodes_count ∧ i < bound records := by
  obtain ⟨-,parent,⟨record,member,start,node,-⟩,-⟩ := parentIn_cases found
  have started : Started records i := ⟨record,member,start,node⟩
  exact ⟨started,(kept.start.node i started).2.1,started.lt_bound⟩
/-- The list and the log of a node and all below it visit its part of the tree. -/
theorem print_printed (fuel depth seq : Nat) (p : PrintState) (started : Started records n) (enough : s.nodes_count ≤ fuel+n) :
    ∃ p', print_frags_list s fuel n depth seq p = some p' ∧
      Printed s p (visits (parentIn records) (bound records) (endedIn records) fuel n) p' := by
  induction fuel generalizing n depth seq p with
  | zero =>
    obtain ⟨-,within,-⟩ := kept.start.node n started
    omega
  | succ fuel ih =>
    have walk : ∀ (ks : List Nat) (p : PrintState), (∀ i ∈ ks, n < i) →
        ∃ p', ks.foldlM (printChild s (print_frags_list s fuel) n depth) p = some p' ∧
          Printed s p ((ks.filter fun i => parentIn records i = some n).flatMap
            (visits (parentIn records) (bound records) (endedIn records) fuel)) p' := by
      intro ks
      induction ks with
      | nil => exact fun p _ => ⟨p,rfl,.refl p⟩
      | cons i ks inner =>
        intro p later
        have less := later i mem_cons_self
        have is_child := parent_iff kept rooted unique (i := i) (n := n) (by omega)
        have behind := fun k member => later k (mem_cons_of_mem i member)
        rw [foldlM_cons,printChild]
        by_cases child : parentIn records i = some n
        · obtain ⟨started_i,-,-⟩ := parentIn_within kept child
          obtain ⟨p₁,printed,visited⟩ := ih (depth+1) (p.depth_seq depth) p started_i (by omega)
          obtain ⟨p₂,walked,visited'⟩ := inner { p₁ with depth_seq := update p₁.depth_seq depth (p₁.depth_seq depth+1) } behind
          refine ⟨p₂,?_,?_⟩
          · rw [if_pos (is_child.mpr child),printed]
            exact walked
          · rw [filter_cons_of_pos (by simpa using child),flatMap_cons]
            exact visited.trans visited'
        · obtain ⟨p₁,walked,visited⟩ := inner p behind
          refine ⟨p₁,?_,?_⟩
          · rw [if_neg fun same => child (is_child.mp same)]
            exact walked
          · rwa [filter_cons_of_neg (by simpa using child)]
    have file := kept.start.file n started
    have same : gistOf s (.enter n) = sent raw copies .start n ++ sent raw copies .verdict n := by rw [gistOf,file]; rfl
    have first : Printed s p [.enter n] (p.add (gistOf s (.enter n)) (startLine s n depth seq (gistOf s (.enter n)).length)) :=
      .add ⟨depth,seq,rfl⟩
    obtain ⟨p₁,walked,below⟩ := walk (List.range' (n+1) (s.nodes_count-(n+1)))
      (p.add (gistOf s (.enter n)) (startLine s n depth seq (gistOf s (.enter n)).length)) (by
        intro i member
        have := (List.mem_range'_1.mp member).1
        omega)
    have in_range : (List.range' (n+1) (s.nodes_count-(n+1))).filter (fun i => parentIn records i = some n) =
        children (parentIn records) (bound records) n := by
      refine children_range fun i found => ?_
      obtain ⟨-,within,below_bound⟩ := parentIn_within kept found
      have less := parentIn_smaller rooted i n found
      exact ⟨by omega,within,below_bound⟩
    rw [in_range] at below
    refine ⟨printEnd s n depth seq p₁,?_,?_⟩
    · rw [same] at walked
      rw [print_frags_list,file,bind_eq_bind,bind_some]
      exact bind_eq_some_iff.mpr ⟨p₁,walked,rfl⟩
    · rw [visits]
      refine first.trans (below.trans ?_)
      rw [printEnd]
      by_cases ended : Ended records n
      · rw [if_pos (endedIn_iff.mpr ended),kept.finish.file n ended]
        have gist : sent raw copies .finish n = gistOf s (.leave n) := by rw [gistOf,kept.finish.file n ended]; rfl
        simp only [gist]
        exact .add ⟨depth,seq,rfl⟩
      · rw [if_neg fun there => ended (endedIn_iff.mp there),(kept.finish.missing n ended).1]
        exact .refl p₁
end
end TestEnvironment.Rgt
