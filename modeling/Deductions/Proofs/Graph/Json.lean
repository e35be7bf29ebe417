import Deductions.Graph.Json
import Deductions.Proofs.Json.Text
import Deductions.Proofs.Path
import Deductions.Proofs.SortedMap
import Deductions.Proofs.Version

namespace Deductions

namespace Json

/-- The value is plain, and is read as `a`. -/
structure StandsFor {α : Type} (read : Json → Option α) (j : Json) (a : α) : Prop where
  plain : j.IsPlain
  read : read j = some a

theorem member?_of_mem {members : List (String × Json)} (distinct : (members.map Prod.fst).Nodup)
    {name : String} {value : Json} (member : (name, value) ∈ members) :
    member? members name = some (some value) := by
  have single : members.filter (fun m => m.1 == name) = [(name, value)] := by
    obtain ⟨before, after, rfl⟩ := List.append_of_mem member
    rw [List.map_append, List.map_cons, List.nodup_middle, List.nodup_cons, List.mem_append,
      not_or] at distinct
    have none : ∀ l : List (String × Json), name ∉ l.map Prod.fst → l.filter (fun m => m.1 == name) = [] := by
      refine fun l absent => List.filter_eq_nil_iff.mpr fun m inside same => absent ?_
      exact eq_of_beq same ▸ List.mem_map_of_mem inside
    rw [List.filter_append, List.filter_cons, none before distinct.1.1, none after distinct.1.2,
      List.nil_append, if_pos (beq_self_eq_true name)]
  rw [member?, single]

/-- The members of a record are found under their names. -/
theorem record?_object {layout : List (String × Presence)} {members : List (String × Json)}
    (names : layout.map Prod.fst = members.map Prod.fst) (distinct : (layout.map Prod.fst).Nodup) :
    record? layout (.object members) = some (members.map fun m => some m.2) := by
  have distinct : (members.map Prod.fst).Nodup := names ▸ distinct
  have fields : ∀ (layout : List (String × Presence)) (l : List (String × Json)),
      layout.map Prod.fst = l.map Prod.fst → l ⊆ members →
      objectFields layout members = some (l.map fun m => some m.2) := by
    intro layout l names inside
    induction layout generalizing l with
    | nil =>
      obtain rfl : l = [] := List.map_eq_nil_iff.mp names.symm
      rfl
    | cons first layout ih =>
      obtain ⟨name, presence⟩ := first
      obtain _ | ⟨⟨name', value⟩, l⟩ := l
      · cases names
      obtain ⟨same, others⟩ := List.cons.inj names
      obtain rfl : name = name' := same
      have later := ih l others fun m member => inside (List.mem_cons_of_mem _ member)
      have found := member?_of_mem distinct (inside List.mem_cons_self)
      rw [objectFields] at later ⊢
      rw [List.mapM_cons, later]
      dsimp only
      rw [found]
      rfl
  exact fields layout members names (List.Subset.refl members)

theorem mapM_eq_some {α β : Type} {f : α → Option β} {g : β → α} {l : List β}
    (each : ∀ b ∈ l, f (g b) = some b) : (l.map g).mapM f = some l := by
  induction l with
  | nil => rfl
  | cons b l ih =>
    obtain ⟨first, later⟩ := List.forall_mem_cons.mp each
    rw [List.map_cons, List.mapM_cons, first, ih later]
    rfl

section

variable {α : Type} {read : Json → Option α} {write : α → Json}

theorem standsFor_ofList {l : List α} (each : ∀ a ∈ l, StandsFor read (write a) a) :
    StandsFor (list? read) (ofList write l) l where
  plain := by
    refine .array _ fun j member => ?_
    obtain ⟨a, inside, rfl⟩ := List.mem_map.mp member
    exact (each a inside).plain
  read := mapM_eq_some fun a member => (each a member).read

theorem standsFor_ofPathMap {m : SortedMap Path α}
    (each : ∀ e ∈ m.entries, e.1.HasIdentifiers ∧ StandsFor read (write e.2) e.2) :
    StandsFor (pathMap? read) (ofPathMap write m) m where
  plain := by
    refine .object _ fun j member => ?_
    obtain ⟨e, inside, rfl⟩ := List.mem_map.mp member
    exact (each e inside).2.plain
  read := by
    rw [ofPathMap, pathMap?, mapM_eq_some]
    · exact congrArg some m.ofList_entries
    · intro e member
      obtain ⟨identifiers, value⟩ := each e member
      dsimp only
      rw [Path.parse_text_eq identifiers, value.read]
      rfl

theorem standsFor_ofStringMap {m : SortedMap String α}
    (each : ∀ e ∈ m.entries, StandsFor read (write e.2) e.2) :
    StandsFor (stringMap? read) (ofStringMap write m) m where
  plain := by
    refine .object _ fun j member => ?_
    obtain ⟨e, inside, rfl⟩ := List.mem_map.mp member
    exact (each e inside).plain
  read := by
    rw [ofStringMap, stringMap?, mapM_eq_some]
    · exact congrArg some m.ofList_entries
    · intro e member
      dsimp only
      rw [(each e member).read]
      rfl

end

theorem IsPlain.noMembers : IsPlain (.object []) := .object _ nofun

theorem IsPlain.member {name : String} {j : Json} {members : List (String × Json)} (plain : j.IsPlain)
    (others : IsPlain (.object members)) : IsPlain (.object ((name, j) :: members)) := by
  cases others with
  | object _ others => exact .object _ (List.forall_mem_cons.mpr ⟨plain, others⟩)

theorem standsFor_string (s : String) : StandsFor string? (.string s) s := ⟨.string s, rfl⟩

theorem standsFor_ofStrings (l : List String) : StandsFor strings? (ofStrings l) l :=
  standsFor_ofList fun s _ => standsFor_string s

theorem standsFor_natural {n : Nat} (small : n < UInt64.size) : StandsFor index? (.natural n) n :=
  ⟨.natural n small, if_pos small⟩

end Json

open Json

theorem Path.standsFor {p : Path} (identifiers : p.HasIdentifiers) : StandsFor Path.ofJson? p.json p where
  plain := .string _
  read := by
    rw [ofJson?, json, string?, Option.bind_eq_bind, Option.bind_some, parse_text_eq identifiers]
    rfl

theorem Version.standsFor (v : Version) : StandsFor Version.ofJson? v.json v where
  plain := .string _
  read := by
    rw [ofJson?, json, string?, Option.bind_eq_bind, Option.bind_some, parse_text_eq v]
    rfl

theorem Connective.ofName?_name (c : Connective) : ofName? c.name = some c := by cases c <;> rfl

theorem NodeKind.ofName?_name (kind : NodeKind) : ofName? kind.name = some kind := by cases kind <;> rfl

theorem ExpansionOrigin.ofName?_name (origin : ExpansionOrigin) : ofName? origin.name = some origin := by
  cases origin <;> rfl

theorem GhostRole.ofName?_name (role : GhostRole) : ofName? role.name = some role := by cases role <;> rfl

theorem NodeRef.standsFor {r : NodeRef} (identifiers : r.path.HasIdentifiers) :
    StandsFor NodeRef.ofJson? r.json r := by
  have path := Path.standsFor identifiers
  have version := r.version.standsFor
  constructor
  case plain => exact .member path.plain (.member version.plain .noMembers)
  case read =>
    rw [ofJson?, json, record?_object rfl (by decide)]
    simp only [List.map_cons, List.map_nil, Option.bind_eq_bind, Option.bind_some, path.read, version.read]
    rfl

theorem NarrationStep.standsFor {step : NarrationStep} (small : step.index < UInt64.size) :
    StandsFor NarrationStep.ofJson? step.json step := by
  have index := standsFor_natural small
  have antecedents := standsFor_ofStrings step.antecedents
  have conclusions := standsFor_ofStrings step.conclusions
  constructor
  case plain =>
    exact .member index.plain (.member (.string _) (.member (.string _)
      (.member antecedents.plain (.member conclusions.plain .noMembers))))
  case read =>
    rw [ofJson?, json, record?_object rfl (by decide)]
    simp only [List.map_cons, List.map_nil, Option.bind_eq_bind, Option.bind_some, index.read, string?,
      caseName?, Connective.ofName?_name, antecedents.read, conclusions.read]
    rfl

/-- All nodes to which a resolved step refers have identifiers, and its index fits into a word. -/
structure ResolvedStep.IsStorable (step : ResolvedStep) : Prop where
  index : step.index < UInt64.size
  antecedents : ∀ r ∈ step.antecedents, r.path.HasIdentifiers
  conclusions : ∀ r ∈ step.conclusions, r.path.HasIdentifiers

theorem ResolvedStep.standsFor {step : ResolvedStep} (storable : step.IsStorable) :
    StandsFor ResolvedStep.ofJson? step.json step := by
  have index := standsFor_natural storable.index
  have antecedents := standsFor_ofList fun r member => NodeRef.standsFor (storable.antecedents r member)
  have conclusions := standsFor_ofList fun r member => NodeRef.standsFor (storable.conclusions r member)
  constructor
  case plain =>
    exact .member index.plain (.member (.string _)
      (.member antecedents.plain (.member conclusions.plain .noMembers)))
  case read =>
    rw [ofJson?, json, record?_object rfl (by decide)]
    simp only [List.map_cons, List.map_nil, Option.bind_eq_bind, Option.bind_some, index.read, caseName?,
      Connective.ofName?_name, antecedents.read, conclusions.read]
    rfl

structure Node.IsStorable (n : Node) : Prop where
  path : n.path.HasIdentifiers
  children : ∀ p ∈ n.children, p.HasIdentifiers
  narration : ∀ steps, n.narration = some steps → ∀ step ∈ steps, step.index < UInt64.size

theorem Node.standsFor {n : Node} (storable : n.IsStorable) : StandsFor Node.ofJson? n.json n := by
  have path := Path.standsFor storable.path
  have version := n.version.standsFor
  have fields : StandsFor (stringMap? string?) (ofStringMap .string n.fields) n.fields :=
    standsFor_ofStringMap fun e _ => standsFor_string e.2
  have children := standsFor_ofList fun p member => Path.standsFor (storable.children p member)
  have narration : StandsFor (nullable? (list? NarrationStep.ofJson?))
      (ofOption (.ofList NarrationStep.json) n.narration) n.narration := by
    cases narrated : n.narration with
    | none => exact ⟨.null, rfl⟩
    | some steps =>
      have each := standsFor_ofList fun step member =>
        NarrationStep.standsFor (storable.narration steps narrated step member)
      exact ⟨each.plain, congrArg (some <$> ·) each.read⟩
  constructor
  case plain =>
    exact .member path.plain (.member version.plain (.member (.string _) (.member fields.plain
      (.member children.plain (.member narration.plain (.member (.bool _) .noMembers))))))
  case read =>
    rw [ofJson?, json, record?_object rfl (by decide)]
    simp only [List.map_cons, List.map_nil, Option.bind_eq_bind, Option.bind_some, Option.map_some,
      Option.getD_some, path.read, version.read, caseName?, NodeKind.ofName?_name, fields.read,
      children.read, narration.read, bool?]
    rfl

theorem Json.isReadableList_iff {elems : List Json} :
    isReadableList elems = true ↔ ∀ j ∈ elems, j.isReadable = true := by
  induction elems with
  | nil => simp [isReadableList]
  | cons j elems ih => rw [isReadableList, Bool.and_eq_true, ih, List.forall_mem_cons]

theorem Json.isReadableMembers_iff {members : List (String × Json)} :
    isReadableMembers members = true ↔ ∀ m ∈ members, m.2.isReadable = true := by
  induction members with
  | nil => simp [isReadableMembers]
  | cons m members ih => rw [isReadableMembers, Bool.and_eq_true, ih, List.forall_mem_cons]

theorem Json.IsPlain.isReadable {j : Json} (plain : j.IsPlain) : j.isReadable = true := by
  induction plain with
  | null | bool | natural | string => rfl
  | array elems _ ih => exact isReadableList_iff.mpr ih
  | object members _ ih => exact isReadableMembers_iff.mpr ih

theorem Json.depthList_le {elems : List Json} {limit : Nat} (each : ∀ j ∈ elems, j.depth ≤ limit) :
    depthList elems ≤ limit := by
  induction elems with
  | nil => exact Nat.zero_le _
  | cons j elems ih =>
    obtain ⟨first, later⟩ := List.forall_mem_cons.mp each
    exact Nat.max_le.mpr ⟨first, ih later⟩

theorem Json.depthMembers_le {members : List (String × Json)} {limit : Nat}
    (each : ∀ m ∈ members, m.2.depth ≤ limit) : depthMembers members ≤ limit := by
  induction members with
  | nil => exact Nat.zero_le _
  | cons m members ih =>
    obtain ⟨first, later⟩ := List.forall_mem_cons.mp each
    exact Nat.max_le.mpr ⟨first, ih later⟩

namespace Edge

structure IsStorable (e : Edge) : Prop where
  endpoints : ∀ r ∈ e.endpoints, r.path.HasIdentifiers
  inference : ∀ source target owner step, e = .inference source target owner step →
    owner.HasIdentifiers ∧ step < UInt64.size

theorem ofForm?_object {name : String} {members : List (String × Json)}
    (unnamed : "kind" ∉ members.map Prod.fst) :
    ofForm? (.object (("kind", .string name) :: members)) = ofCase? name (.object members) := by
  have others : (("kind", .string name) :: members).filter (fun m => m.1 != "kind") = members := by
    rw [List.filter_cons_of_neg (by simp)]
    refine List.filter_eq_self.mpr fun m member => bne_iff_ne.mpr fun same => unnamed ?_
    exact same ▸ List.mem_map_of_mem member
  have none : members.filter (fun m => m.1 == "kind") = [] :=
    List.filter_eq_nil_iff.mpr fun m member same => unnamed (eq_of_beq same ▸ List.mem_map_of_mem member)
  have found : member? (("kind", .string name) :: members) "kind" = some (some (.string name)) := by
    rw [member?, List.filter_cons_of_pos (by rfl), none]
  rw [ofForm?, found, others]
  rfl

theorem depth_members_le (e : Edge) : ∀ m ∈ e.members, m.2.depth ≤ 2 := by
  have ref : ∀ r : NodeRef, r.json.depth ≤ 2 := fun _ => Nat.le_succ 1
  have refs : ∀ l : List NodeRef, (ofList NodeRef.json l).depth ≤ 2 := by
    intro l
    refine Nat.succ_le_succ (depthList_le fun j member => ?_)
    obtain ⟨r, _, rfl⟩ := List.mem_map.mp member
    exact Nat.le_refl 1
  cases e <;> simp only [members, List.forall_mem_cons, List.not_mem_nil, false_imp_iff, implies_true,
    and_true]
  case expansion source targets origin => exact ⟨ref source, refs targets, Nat.zero_le _⟩
  case inference source target owner step =>
    exact ⟨ref source, ref target, Nat.zero_le _, Nat.zero_le _⟩
  case ghost source target role => exact ⟨ref source, ref target, Nat.zero_le _⟩
  all_goals exact ⟨ref _, ref _⟩

theorem plain_members {e : Edge} (storable : e.IsStorable) : IsPlain (.object e.members) := by
  have ref : ∀ r ∈ e.endpoints, r.json.IsPlain := fun r member =>
    (NodeRef.standsFor (storable.endpoints r member)).plain
  have source := ref e.source List.mem_cons_self
  have target : ∀ r ∈ e.targets, r.json.IsPlain := fun r member => ref r (List.mem_cons_of_mem _ member)
  cases e with
  | expansion _ targets origin =>
    refine .member source (.member (.array _ fun j member => ?_) (.member (.string _) .noMembers))
    obtain ⟨r, inside, rfl⟩ := List.mem_map.mp member
    exact target r inside
  | inference r r' owner step =>
    obtain ⟨_, small⟩ := storable.inference r r' owner step rfl
    exact .member source (.member (target r' List.mem_cons_self)
      (.member (.string _) (.member (.natural step small) .noMembers)))
  | ghost _ r' role =>
    exact .member source (.member (target r' List.mem_cons_self) (.member (.string _) .noMembers))
  | contradiction _ r' | alternativeCase _ r' | annotates _ r' =>
    exact .member source (.member (target r' List.mem_cons_self) .noMembers)

theorem unnamed_members (e : Edge) : "kind" ∉ e.members.map Prod.fst := by
  cases e <;> simp [members]

theorem pair?_object {source target : NodeRef} (atSource : StandsFor NodeRef.ofJson? source.json source)
    (atTarget : StandsFor NodeRef.ofJson? target.json target) :
    pair? (.object [("source", source.json), ("target", target.json)]) = some (source, target) := by
  rw [pair?, record?_object rfl (by decide)]
  simp only [List.map_cons, List.map_nil, Option.bind_eq_bind, Option.bind_some, atSource.read, atTarget.read]
  rfl

theorem ofCase?_members {e : Edge} (storable : e.IsStorable) :
    ofCase? (formName e.kind) (.object e.members) = some e := by
  have endpoint : ∀ r ∈ e.endpoints, StandsFor NodeRef.ofJson? r.json r := fun r member =>
    NodeRef.standsFor (storable.endpoints r member)
  cases e with
  | expansion source targets origin =>
    have atSource : StandsFor NodeRef.ofJson? source.json source := endpoint source List.mem_cons_self
    have atTargets : StandsFor (list? NodeRef.ofJson?) (ofList NodeRef.json targets) targets :=
      standsFor_ofList fun r member => endpoint r (List.mem_cons_of_mem _ member)
    change expansion? _ = _
    rw [expansion?, members, record?_object rfl (by decide)]
    simp only [List.map_cons, List.map_nil, Option.bind_eq_bind, Option.bind_some, atSource.read,
      atTargets.read, looseCaseName?, caseName?, ExpansionOrigin.ofName?_name]
    rfl
  | inference source target owner step =>
    have atSource : StandsFor NodeRef.ofJson? source.json source := endpoint source List.mem_cons_self
    have atTarget : StandsFor NodeRef.ofJson? target.json target :=
      endpoint target (List.mem_cons_of_mem _ List.mem_cons_self)
    obtain ⟨identifiers, small⟩ := storable.inference source target owner step rfl
    change inference? _ = _
    rw [inference?, members, record?_object rfl (by decide)]
    simp only [List.map_cons, List.map_nil, Option.bind_eq_bind, Option.bind_some, atSource.read,
      atTarget.read, (Path.standsFor identifiers).read, (standsFor_natural small).read]
    rfl
  | ghost source target role =>
    have atSource : StandsFor NodeRef.ofJson? source.json source := endpoint source List.mem_cons_self
    have atTarget : StandsFor NodeRef.ofJson? target.json target :=
      endpoint target (List.mem_cons_of_mem _ List.mem_cons_self)
    change ghost? _ = _
    rw [ghost?, members, record?_object rfl (by decide)]
    simp only [List.map_cons, List.map_nil, Option.bind_eq_bind, Option.bind_some, atSource.read,
      atTarget.read, looseCaseName?, caseName?, GhostRole.ofName?_name]
    rfl
  | contradiction source target | alternativeCase source target | annotates source target =>
    exact congrArg (Option.map _) (pair?_object (endpoint source List.mem_cons_self)
      (endpoint target (List.mem_cons_of_mem _ List.mem_cons_self)))

theorem standsFor {e : Edge} (storable : e.IsStorable) : StandsFor Edge.ofJson? e.json e := by
  have plain : e.json.IsPlain := .member (.string _) (plain_members storable)
  have shallow : e.json.depth ≤ nestingLimit := by
    have members : depthMembers (("kind", .string (formName e.kind)) :: e.members) ≤ 2 :=
      Nat.max_le.mpr ⟨Nat.zero_le _, depthMembers_le e.depth_members_le⟩
    exact Nat.le_trans (Nat.succ_le_succ members) (by decide)
  refine ⟨plain, ?_⟩
  rw [ofJson?, isKept, plain.isReadable, Bool.true_and, decide_eq_true shallow, if_pos rfl, json,
    ofForm?_object e.unnamed_members, ofCase?_members storable]

end Edge

end Deductions
