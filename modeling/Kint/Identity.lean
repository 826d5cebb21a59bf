import Kint.Annotation
import Kint.Dotted
import Kint.LLVM.Reference

/-!
# Which entities share an identifier

Identifiers are compared across modules, so an entity that several modules see needs one
identifier and different entities need different ones.  The scope of a name decides both: a name
of external linkage is taken as it is, every other one is prefixed with the stem of the file of
its module.

Two names have one scope exactly when the linkages agree on the prefix and, with the prefix, the
stems are the same (`getScopeName_eq_iff`).  The stem forgets the directory and the extension of
a file.

## Main definitions

* `SameSymbol G H`: the linker resolves the two names to one symbol.  What counts is whether the
  linkage is local, which is not the question that `getScopeName` asks.
* `Loaded P Ms types`: modules as a C compiler writes them, read from different files.  Names
  are C identifiers, so they have no dots and do not begin with one.
* `IdsDistinct`: whatever has one identifier is one entity; `NoClash`: no two modules of one
  stem have names in common that are prefixed.

## Main results

* `same_entity_iff`: one entity has one identifier in two modules just if the prefixes agree.  A
  tentative definition has common linkage and so a prefix, while a declaration of it in another
  module has none (`common_not_same`).
* `idsDistinct_iff`: different entities have different identifiers just if nothing clashes.  The
  kind of an identifier is told by its first letter (`kind_unique`), and the numbers of
  arguments and fields can be read off its end.
-/

namespace Kint

section Scope

variable {L : Library} {P : Program} {G H : GlobalValue}

/-- A name of external linkage is taken as it is. -/
theorem getScopeName_external (h : G.linkage = .external) : getScopeName L G = G.name :=
  if_pos h

/-- Any other name gets the stem of its module as a prefix. -/
theorem getScopeName_prefixed (h : G.linkage ≠ .external) :
    getScopeName L G = dotted ("_" ++ L.stem G.moduleIdentifier) G.name :=
  if_neg h

/-- The names have the prefix or not, and if so it is the same. -/
def SameScope (L : Library) (G H : GlobalValue) : Prop :=
  G.linkage = .external ∧ H.linkage = .external ∨
    G.linkage ≠ .external ∧ H.linkage ≠ .external ∧
      L.stem G.moduleIdentifier = L.stem H.moduleIdentifier

theorem dotted_ne_self (x a : String) : dotted x a ≠ a := by
  intro h
  have := congrArg (fun s => s.toList.length) h
  simp only [toList_dotted, List.length_append, List.length_cons] at this
  omega

/-- One name in two modules. -/
theorem getScopeName_eq_iff_of_name (hname : G.name = H.name) :
    getScopeName L G = getScopeName L H ↔ SameScope L G H := by
  unfold SameScope
  by_cases hG : G.linkage = .external <;> by_cases hH : H.linkage = .external
  · simp [getScopeName_external, hG, hH, hname]
  · rw [getScopeName_external hG, getScopeName_prefixed hH, hname]
    simp [hG, hH, (dotted_ne_self _ _).symm]
  · rw [getScopeName_prefixed hG, getScopeName_external hH, hname]
    simp [hG, hH, dotted_ne_self]
  · rw [getScopeName_prefixed hG, getScopeName_prefixed hH, hname]
    simp [hG, hH, dotted]

/-- Names without dots: the scopes are one only if the names are. -/
theorem getScopeName_eq_iff (hG : Dotless G.name) (hH : Dotless H.name) :
    getScopeName L G = getScopeName L H ↔ G.name = H.name ∧ SameScope L G H := by
  refine ⟨fun h => ?_, fun ⟨hname, h⟩ => (getScopeName_eq_iff_of_name hname).mpr h⟩
  suffices hname : G.name = H.name from ⟨hname, (getScopeName_eq_iff_of_name hname).mp h⟩
  by_cases hG' : G.linkage = .external <;> by_cases hH' : H.linkage = .external
  · rwa [getScopeName_external hG', getScopeName_external hH'] at h
  · rw [getScopeName_external hG', getScopeName_prefixed hH'] at h
    exact absurd (h ▸ hG) (not_dotless_dotted _ _)
  · rw [getScopeName_prefixed hG', getScopeName_external hH'] at h
    exact absurd (h ▸ hH) (not_dotless_dotted _ _)
  · rw [getScopeName_prefixed hG', getScopeName_prefixed hH'] at h
    exact ((dotted_inj hG hH).mp h).2

/-- Variables have one identifier if their names have one scope. -/
theorem getVarId_eq_iff : getVarId L G = getVarId L H ↔ getScopeName L G = getScopeName L H := by
  unfold getVarId
  exact String.append_right_inj _

/-- Return values have one identifier if the names of the functions have one scope. -/
theorem getRetId_eq_iff {f g : FuncId} : getRetId L P f = getRetId L P g ↔
    getScopeName L (P.func f).toGlobalValue = getScopeName L (P.func g).toGlobalValue := by
  unfold getRetId
  exact String.append_right_inj _

/-- The identifier of an argument is that of the function with the number behind a dot. -/
theorem getArgId_eq_dotted (f : FuncId) (no : ℕ) : getArgId L P f no =
    dotted ("arg." ++ getScopeName L (P.func f).toGlobalValue) (toString no) := rfl

/-- Arguments have one identifier if their numbers are the same and the names of the functions have
one scope. -/
theorem getArgId_eq_iff {f g : FuncId} {no no' : ℕ} : getArgId L P f no = getArgId L P g no' ↔
    getScopeName L (P.func f).toGlobalValue = getScopeName L (P.func g).toGlobalValue ∧
      no = no' := by
  rw [getArgId_eq_dotted, getArgId_eq_dotted, dotted_toString_inj, String.append_right_inj]

end Scope

/-! ## One entity in two modules -/

/-- A linkage that the linker does not look at. -/
def Linkage.isLocal : Linkage → Bool
  | internal | privateLinkage => true
  | _ => false

/-- The linker resolves both names to one symbol. -/
structure SameSymbol (G H : GlobalValue) : Prop where
  name : G.name = H.name
  visible : G.linkage.isLocal = false
  visible' : H.linkage.isLocal = false

/-- The name of an anonymous struct: `struct.anon` or `struct.anon.N`. -/
def IsAnonymous (name : String) : Prop :=
  name = "struct.anon" ∨ ∃ n : ℕ, name = "struct.anon." ++ toString n

/-- The names of anonymous structs have the prefix that the scope looks for. -/
theorem IsAnonymous.startswith {name : String} (h : IsAnonymous name) :
    startswith name "struct.anon" = true := by
  rcases h with rfl | ⟨n, rfl⟩
  · decide
  · simp [Kint.startswith]

section Same

variable {L : Library} {P : Program}

/-- The identifier of a field is that of the struct with the number behind a dot. -/
theorem getStructId_eq_dotted {s : StructId} (h : (P.struct s).isLiteral = false) (M : String)
    (offset : ℕ) : getStructId L P (.struct s) M offset =
      dotted (getStructScopeName L (P.struct s) M) (toString offset) := by
  simp [getStructId, h, dotted]

/-- One struct name in two modules has one scope if it does not look anonymous, or if the stems are
the same. -/
theorem getStructScopeName_eq_iff {S T : StructType} (hname : S.name = T.name) (M M' : String) :
    getStructScopeName L S M = getStructScopeName L T M' ↔
      startswith S.name "struct.anon" = false ∨ L.stem M = L.stem M' := by
  unfold getStructScopeName
  rw [← hname]
  cases h : startswith S.name "struct.anon" with
  | false => simp
  | true => simp

/-- One entity has one identifier in two modules exactly when the scopes of its
names agree: both linkages are external, or neither is and the stems are the same;
and a struct type needs one stem if its name starts with `struct.anon`, anonymous
or not. -/
theorem same_entity_iff (L : Library) (P : Program) :
    (∀ G H, SameSymbol G H → (getVarId L G = getVarId L H ↔ SameScope L G H)) ∧
    (∀ f g, SameSymbol (P.func f).toGlobalValue (P.func g).toGlobalValue →
      ((∀ no, getArgId L P f no = getArgId L P g no) ∧ getRetId L P f = getRetId L P g ↔
        SameScope L (P.func f).toGlobalValue (P.func g).toGlobalValue)) ∧
    ∀ s t M M', (P.struct s).isLiteral = false → (P.struct t).isLiteral = false →
      (P.struct s).name = (P.struct t).name → (P.struct s).name ≠ "" →
        ¬IsAnonymous (P.struct s).name →
          ((∀ offset,
              getStructId L P (.struct s) M offset = getStructId L P (.struct t) M' offset) ↔
            startswith (P.struct s).name "struct.anon" = false ∨ L.stem M = L.stem M') := by
  refine ⟨fun G H h => ?_, fun f g h => ?_, fun s t M M' hs ht hname _ _ => ?_⟩
  · rw [getVarId_eq_iff, getScopeName_eq_iff_of_name h.name]
  · simp only [getArgId_eq_iff, getRetId_eq_iff, and_true, forall_const, and_self]
    exact getScopeName_eq_iff_of_name h.name
  · simp only [getStructId_eq_dotted hs, getStructId_eq_dotted ht, dotted_toString_inj, and_true,
      forall_const]
    exact getStructScopeName_eq_iff hname M M'

end Same

/-- `sys::path::stem`: the last component of the path up to its last dot. -/
def pathStem (path : String) : String :=
  let file := (path.toList.reverse.takeWhile (· ≠ '/')).reverse
  if '.' ∈ file ∧ file ≠ ['.'] ∧ file ≠ ['.', '.'] then
    String.ofList (file.reverse.dropWhile (· ≠ '.')).tail.reverse
  else String.ofList file

/-- The library with the stems of real paths. -/
def Library.withPaths : Library := { Library.reference with stem := pathStem }

/-- A tentative definition, of common linkage, and the declaration of it that
another module sees have different identifiers. -/
theorem common_not_same :
    SameSymbol ⟨"jiffies", .common, "timer.ll"⟩ ⟨"jiffies", .external, "sched.ll"⟩ ∧
      getVarId .withPaths ⟨"jiffies", .common, "timer.ll"⟩ = "var._timer.jiffies" ∧
      getVarId .withPaths ⟨"jiffies", .external, "sched.ll"⟩ = "var.jiffies" := by
  refine ⟨⟨rfl, rfl, rfl⟩, by decide, by decide⟩

/-- Two declarations of `kfree` and a named struct type. -/
def twoDeclarations : Program where
  insts := []
  blocks := []
  funcs := [⟨⟨"kfree", .external, "slab.ll"⟩, false, [], .other, []⟩,
    ⟨⟨"kfree", .external, "sched.ll"⟩, false, [], .other, []⟩]
  globals := []
  structs := [⟨false, "struct.list_head", []⟩, ⟨false, "struct.list_head", []⟩]
  consts := []

/-- A variable, a function and a named struct type that two modules declare have one identifier
each. -/
theorem same_entity_declarations :
    getVarId .withPaths ⟨"jiffies", .external, "timer.ll"⟩ =
        getVarId .withPaths ⟨"jiffies", .external, "sched.ll"⟩ ∧
      getRetId .withPaths twoDeclarations 0 = getRetId .withPaths twoDeclarations 1 ∧
      getStructId .withPaths twoDeclarations (.struct 0) "slab.ll" 1 =
        getStructId .withPaths twoDeclarations (.struct 1) "sched.ll" 1 := by
  obtain ⟨hvar, hfunc, hstruct⟩ := same_entity_iff .withPaths twoDeclarations
  have hnot : startswith (twoDeclarations.struct 0).name "struct.anon" = false := by decide
  have hnamed : ¬IsAnonymous (twoDeclarations.struct 0).name := fun h => by
    rw [h.startswith] at hnot
    cases hnot
  refine ⟨?_, ?_, ?_⟩
  · have hsame : SameSymbol ⟨"jiffies", .external, "timer.ll"⟩ ⟨"jiffies", .external, "sched.ll"⟩ :=
      ⟨rfl, rfl, rfl⟩
    exact (hvar _ _ hsame).mpr (.inl ⟨rfl, rfl⟩)
  · exact ((hfunc 0 1 ⟨rfl, rfl, rfl⟩).mpr (.inl ⟨rfl, rfl⟩)).2
  · exact (hstruct 0 1 _ _ rfl rfl rfl (by decide) hnamed).mpr (.inl hnot) 1

/-! ## Different entities -/

/-- A name of the source language: letters, digits and underscores. -/
def CIdentifier (s : String) : Prop := s ≠ "" ∧ ∀ c ∈ s.toList, c.isAlphanum ∨ c = '_'

theorem CIdentifier.dotless {s : String} (h : CIdentifier s) : Dotless s := by
  intro hdot
  exact absurd (h.2 '.' hdot) (by decide)

/-- A name in the symbol table of a module. -/
inductive Symbol
  | var (g : GlobalId)
  | func (f : FuncId)
  deriving DecidableEq

namespace Symbol

/-- What the symbol stands for. -/
def value (P : Program) : Symbol → GlobalValue
  | var g => (P.global g).toGlobalValue
  | func f => (P.func f).toGlobalValue

/-- The identifiers of a symbol: of a variable, or of the arguments and the
return value of a function. -/
def HasId (L : Library) (P : Program) (id : String) : Symbol → Prop
  | var g => id = getVarId L (P.global g).toGlobalValue
  | func f => id = getRetId L P f ∨ ∃ no, id = getArgId L P f no

/-- Both are variables or both are functions. -/
def SameKind : Symbol → Symbol → Prop
  | var _, var _ => True
  | func _, func _ => True
  | _, _ => False

end Symbol

/-- The symbol table of a module. -/
def Module.symbols (M : Module) : List Symbol :=
  M.globals.map .var ++ M.functions.map .func

/-- Modules read from pairwise different files, with the names that a C compiler
gives; `types` are the struct types of each module. -/
structure Loaded (P : Program) (Ms : List Module) (types : Module → List StructId) : Prop where
  files : (Ms.map Module.identifier).Nodup
  parent : ∀ M ∈ Ms, ∀ s ∈ M.symbols, (s.value P).moduleIdentifier = M.identifier
  table : ∀ M ∈ Ms, ∀ s ∈ M.symbols, ∀ t ∈ M.symbols,
    (s.value P).name = (t.value P).name → s = t
  names : ∀ M ∈ Ms, ∀ s ∈ M.symbols, CIdentifier (s.value P).name
  tags : ∀ M ∈ Ms, ∀ s ∈ types M,
    startswith (P.struct s).name "struct." = true ∨ startswith (P.struct s).name "union." = true

/-- What an identifier names. -/
inductive IdKind
  | var | arg | ret | field
  deriving DecidableEq

/-- The identifiers of each kind; a call has the identifier of what it calls. -/
def IdKind.HasId (L : Library) (P : Program) (Ms : List Module) (types : Module → List StructId)
    (id : String) : IdKind → Prop
  | var => ∃ G, id = getVarId L G
  | arg => ∃ f no, id = getArgId L P f no
  | ret => (∃ f, id = getRetId L P f) ∨ ∃ i, id = getCallRetId L P i ∧ id ≠ ""
  | field => ∃ M ∈ Ms, ∃ s ∈ types M, (P.struct s).isLiteral = false ∧
      ∃ offset, id = getStructId L P (.struct s) M.identifier offset

/-- Different entities have different identifiers. The first clause is about symbols, of which one
has internal linkage, and the second one about the fields of anonymous struct types in different
modules. -/
structure IdsDistinct (L : Library) (P : Program) (Ms : List Module)
    (types : Module → List StructId) : Prop where
  symbols : ∀ M ∈ Ms, ∀ M' ∈ Ms, ∀ s ∈ M.symbols, ∀ t ∈ M'.symbols, s ≠ t →
    (s.value P).linkage = .internal → ∀ id, s.HasId L P id → ¬t.HasId L P id
  fields : ∀ M ∈ Ms, ∀ M' ∈ Ms, M.identifier ≠ M'.identifier → ∀ s ∈ types M, ∀ t ∈ types M',
    (P.struct s).isLiteral = false → (P.struct t).isLiteral = false →
      IsAnonymous (P.struct s).name → IsAnonymous (P.struct t).name → ∀ offset offset',
        getStructId L P (.struct s) M.identifier offset ≠
          getStructId L P (.struct t) M'.identifier offset'
  kinds : ∀ id a b, IdKind.HasId L P Ms types id a → IdKind.HasId L P Ms types id b → a = b

/-- No two modules of one stem have an internal symbol of one of them, and a
symbol of the other that is not of external linkage, under one name, or an
anonymous struct type under one name. -/
structure NoClash (L : Library) (P : Program) (Ms : List Module)
    (types : Module → List StructId) : Prop where
  symbols : ∀ M ∈ Ms, ∀ M' ∈ Ms, M.identifier ≠ M'.identifier →
    L.stem M.identifier = L.stem M'.identifier → ∀ s ∈ M.symbols, ∀ t ∈ M'.symbols,
      s.SameKind t → (s.value P).linkage = .internal → (t.value P).linkage ≠ .external →
        (s.value P).name ≠ (t.value P).name
  fields : ∀ M ∈ Ms, ∀ M' ∈ Ms, M.identifier ≠ M'.identifier →
    L.stem M.identifier = L.stem M'.identifier → ∀ s ∈ types M, ∀ t ∈ types M',
      (P.struct s).isLiteral = false → (P.struct t).isLiteral = false →
        IsAnonymous (P.struct s).name → (P.struct s).name ≠ (P.struct t).name

section Kinds

variable {L : Library} {P : Program} {Ms : List Module} {types : Module → List StructId}

/-- The first character of an identifier of each kind, where there is one. -/
def IdKind.letters : IdKind → List Char
  | var => ['v']
  | arg => ['a']
  | ret => ['r']
  | field => ['s', 'u']

/-- The first character of a string stays the first one when something is appended. -/
theorem head_append {a b : String} (c : Char) (h : a.toList.head? = some c) :
    (a ++ b).toList.head? = some c := by
  rw [String.toList_append, List.head?_append, h]
  rfl

/-- A string with a prefix begins with the first character of the prefix. -/
theorem head_of_startswith {s pre : String} {c : Char} (h : startswith s pre = true)
    (hpre : pre.toList.head? = some c) : s.toList.head? = some c := by
  obtain ⟨rest, hrest⟩ := List.isPrefixOf_iff_prefix.mp h
  rw [← hrest, List.head?_append, hpre]
  rfl

/-- The scope of a struct begins with the letter of `struct` or `union`. -/
theorem head_getStructScopeName {S : StructType} (M : String)
    (h : startswith S.name "struct." = true ∨ startswith S.name "union." = true) :
    ∃ c ∈ ['s', 'u'], (getStructScopeName L S M).toList.head? = some c := by
  unfold getStructScopeName
  split
  · refine ⟨'s', by simp, ?_⟩
    rw [String.append_assoc]
    exact head_append (a := "struct._") 's' rfl
  · rcases h with h | h
    · exact ⟨'s', by simp, head_of_startswith h rfl⟩
    · exact ⟨'u', by simp, head_of_startswith h rfl⟩

/-- A call has the identifier of what it calls behind `ret.`, or none. -/
theorem getCallRetId_cases (i : InstId) :
    getCallRetId L P i = "" ∨ ∃ id, getCallRetId L P i = "ret." ++ id := by
  unfold getCallRetId
  split
  · exact .inr ⟨_, rfl⟩
  · simp only
    split
    · exact .inr ⟨_, rfl⟩
    · exact .inl rfl
  · exact .inl rfl

/-- Identifiers of one kind begin with one of the letters of the kind. Kinds with different letters
therefore never share an identifier. -/
theorem head_mem_letters (hloaded : Loaded P Ms types) {id : String} {k : IdKind}
    (h : k.HasId L P Ms types id) : ∃ c ∈ k.letters, id.toList.head? = some c := by
  cases k with
  | var =>
    obtain ⟨G, rfl⟩ := h
    exact ⟨'v', by simp [IdKind.letters], head_append (a := "var.") 'v' rfl⟩
  | arg =>
    obtain ⟨f, no, rfl⟩ := h
    refine ⟨'a', by simp [IdKind.letters], ?_⟩
    unfold getArgId
    rw [String.append_assoc, String.append_assoc]
    exact head_append (a := "arg.") 'a' rfl
  | ret =>
    rcases h with ⟨f, rfl⟩ | ⟨i, rfl, hne⟩
    · exact ⟨'r', by simp [IdKind.letters], head_append (a := "ret.") 'r' rfl⟩
    · obtain ⟨id, hid⟩ := (getCallRetId_cases i).resolve_left hne
      rw [hid]
      exact ⟨'r', by simp [IdKind.letters], head_append (a := "ret.") 'r' rfl⟩
  | field =>
    obtain ⟨M, hM, s, hs, hlit, offset, rfl⟩ := h
    obtain ⟨c, hc, hhead⟩ := head_getStructScopeName (L := L) M.identifier (hloaded.tags M hM s hs)
    refine ⟨c, hc, ?_⟩
    rw [getStructId_eq_dotted hlit, dotted, String.append_assoc]
    exact head_append c hhead

/-- The kind of an identifier can be read off its first character. -/
theorem kind_unique (hloaded : Loaded P Ms types) {id : String} {a b : IdKind}
    (ha : a.HasId L P Ms types id) (hb : b.HasId L P Ms types id) : a = b := by
  obtain ⟨c, hc, hhead⟩ := head_mem_letters hloaded ha
  obtain ⟨d, hd, hhead'⟩ := head_mem_letters hloaded hb
  obtain rfl : c = d := Option.some.inj (hhead.symm.trans hhead')
  cases a <;> cases b <;> first | rfl | (simp [IdKind.letters] at hc hd; grind)

end Kinds

/-! ## Symbols and fields -/

section Clash

variable {L : Library} {P : Program} {Ms : List Module} {types : Module → List StructId}

/-- Two symbols with a common identifier are of one kind and their names have
one scope. -/
theorem scope_eq_of_hasId (hloaded : Loaded P Ms types) {s t : Symbol} {id : String}
    (hs : s.HasId L P id) (ht : t.HasId L P id) :
    s.SameKind t ∧ getScopeName L (s.value P) = getScopeName L (t.value P) := by
  have hkind := fun a b => @kind_unique L P Ms types hloaded id a b
  cases s with
  | var g =>
    cases t with
    | var g' => exact ⟨trivial, getVarId_eq_iff.mp (hs.symm.trans ht)⟩
    | func f =>
      rcases ht with ht | ⟨no, ht⟩
      · cases hkind .var .ret ⟨_, hs⟩ (.inl ⟨f, ht⟩)
      · cases hkind .var .arg ⟨_, hs⟩ ⟨f, no, ht⟩
  | func f =>
    cases t with
    | var g =>
      rcases hs with hs | ⟨no, hs⟩
      · cases hkind .ret .var (.inl ⟨f, hs⟩) ⟨_, ht⟩
      · cases hkind .arg .var ⟨f, no, hs⟩ ⟨_, ht⟩
    | func f' =>
      refine ⟨trivial, ?_⟩
      rcases hs with hs | ⟨no, hs⟩ <;> rcases ht with ht | ⟨no', ht⟩
      · exact getRetId_eq_iff.mp (hs.symm.trans ht)
      · cases hkind .ret .arg (.inl ⟨f, hs⟩) ⟨f', no', ht⟩
      · cases hkind .arg .ret ⟨f, no, hs⟩ (.inl ⟨f', ht⟩)
      · exact (getArgId_eq_iff.mp (hs.symm.trans ht)).1

/-- Two symbols of one kind whose names have one scope have a common identifier. -/
theorem hasId_of_scope_eq {s t : Symbol} (hkind : s.SameKind t)
    (h : getScopeName L (s.value P) = getScopeName L (t.value P)) :
    ∃ id, s.HasId L P id ∧ t.HasId L P id := by
  cases s with
  | var g =>
    cases t with
    | var g' => exact ⟨_, rfl, getVarId_eq_iff.mpr h⟩
    | func f => exact hkind.elim
  | func f =>
    cases t with
    | var g => exact hkind.elim
    | func f' => exact ⟨_, .inl rfl, .inl (getRetId_eq_iff.mpr h)⟩

/-- The scope of the anonymous struct without a number. -/
theorem getStructScopeName_anon {S : StructType} (h : S.name = "struct.anon") (M : String) :
    getStructScopeName L S M = dotted ("struct._" ++ L.stem M) "anon" := by
  have hrest : String.ofList (List.drop 6 "struct.anon".toList) = "." ++ "anon" := by decide
  rw [getStructScopeName, h, if_pos (by decide), hrest, ← String.append_assoc]
  rfl

/-- The scope of an anonymous struct with a number. -/
theorem getStructScopeName_anon_number {S : StructType} {n : ℕ}
    (h : S.name = "struct.anon." ++ toString n) (M : String) :
    getStructScopeName L S M = dotted (dotted ("struct._" ++ L.stem M) "anon") (toString n) := by
  have hstart : startswith S.name "struct.anon" = true :=
    IsAnonymous.startswith (.inr ⟨n, h⟩)
  rw [getStructScopeName, if_pos hstart, h, ← String.toList_inj]
  simp [dotted]

/-- The number of an anonymous struct is not `anon`. -/
theorem anon_ne_toString (n : ℕ) : "anon" ≠ toString n := by
  intro h
  have hmem : 'a' ∈ (toString n).toList := by
    rw [← h]
    decide
  rw [Nat.toString_eq_repr, Nat.toList_repr] at hmem
  exact absurd (Nat.isDigit_of_mem_toDigits (by decide) (by decide) hmem) (by decide)

/-- Anonymous struct types have one scope only if they have one name and the
stems are the same. -/
theorem anonymous_scope_inj {S T : StructType} (hS : IsAnonymous S.name) (hT : IsAnonymous T.name)
    {M M' : String} (h : getStructScopeName L S M = getStructScopeName L T M') :
    L.stem M = L.stem M' ∧ S.name = T.name := by
  have hanon : Dotless "anon" := by decide
  rcases hS with hS | ⟨n, hS⟩ <;> rcases hT with hT | ⟨m, hT⟩
  · rw [getStructScopeName_anon hS, getStructScopeName_anon hT, dotted_inj hanon hanon,
      String.append_right_inj] at h
    exact ⟨h.1, hS.trans hT.symm⟩
  · rw [getStructScopeName_anon hS, getStructScopeName_anon_number hT,
      dotted_inj hanon (dotless_toString m)] at h
    exact absurd h.2 (anon_ne_toString m)
  · rw [getStructScopeName_anon_number hS, getStructScopeName_anon hT,
      dotted_inj (dotless_toString n) hanon] at h
    exact absurd h.2.symm (anon_ne_toString n)
  · rw [getStructScopeName_anon_number hS, getStructScopeName_anon_number hT, dotted_toString_inj,
      dotted_inj hanon hanon, String.append_right_inj] at h
    obtain ⟨⟨hstem, -⟩, rfl⟩ := h
    exact ⟨hstem, hS.trans hT.symm⟩

/-- Modules of one file are one module. -/
theorem Loaded.module_eq (hloaded : Loaded P Ms types) {M M' : Module} (hM : M ∈ Ms)
    (hM' : M' ∈ Ms) (h : M.identifier = M'.identifier) : M = M' :=
  List.inj_on_of_nodup_map hloaded.files hM hM' h

/-- The identifiers of the modules in a run are different for different entities
exactly when no two modules of one stem have names in common that are prefixed
with it. -/
theorem idsDistinct_iff (L : Library) (P : Program) (Ms : List Module)
    (types : Module → List StructId) (hloaded : Loaded P Ms types) :
    IdsDistinct L P Ms types ↔ NoClash L P Ms types := by
  constructor
  · intro h
    constructor
    · intro M hM M' hM' hfile hstem s hs t ht hkind hinternal hlinkage hname
      have hne : s ≠ t := by
        rintro rfl
        exact hfile ((hloaded.parent M hM s hs).symm.trans (hloaded.parent M' hM' s ht))
      have hscope : getScopeName L (s.value P) = getScopeName L (t.value P) := by
        refine (getScopeName_eq_iff_of_name hname).mpr (.inr ⟨by simp [hinternal], hlinkage, ?_⟩)
        rw [hloaded.parent M hM s hs, hloaded.parent M' hM' t ht, hstem]
      obtain ⟨id, hid, hid'⟩ := hasId_of_scope_eq hkind hscope
      exact h.symbols M hM M' hM' s hs t ht hne hinternal id hid hid'
    · intro M hM M' hM' hfile hstem s hs t ht hslit htlit hanon hname
      refine h.fields M hM M' hM' hfile s hs t ht hslit htlit hanon (hname ▸ hanon) 0 0 ?_
      rw [getStructId_eq_dotted hslit, getStructId_eq_dotted htlit,
        (getStructScopeName_eq_iff hname M.identifier M'.identifier).mpr (.inr hstem)]
  · intro h
    constructor
    · intro M hM M' hM' s hs t ht hne hinternal id hid hid'
      obtain ⟨hkind, hscope⟩ := scope_eq_of_hasId hloaded hid hid'
      obtain ⟨hname, hsame⟩ := (getScopeName_eq_iff (hloaded.names M hM s hs).dotless
        (hloaded.names M' hM' t ht).dotless).mp hscope
      rcases hsame with ⟨hexternal, -⟩ | ⟨-, hlinkage, hstem⟩
      · rw [hinternal] at hexternal
        cases hexternal
      · rw [hloaded.parent M hM s hs, hloaded.parent M' hM' t ht] at hstem
        by_cases hfile : M.identifier = M'.identifier
        · obtain rfl := hloaded.module_eq hM hM' hfile
          exact hne (hloaded.table M hM s hs t ht hname)
        · exact h.symbols M hM M' hM' hfile hstem s hs t ht hkind hinternal hlinkage hname
    · intro M hM M' hM' hfile s hs t ht hslit htlit hanon hanon' offset offset' heq
      rw [getStructId_eq_dotted hslit, getStructId_eq_dotted htlit, dotted_toString_inj] at heq
      obtain ⟨hstem, hname⟩ := anonymous_scope_inj hanon hanon' heq.1
      exact h.fields M hM M' hM' hfile hstem s hs t ht hslit htlit hanon hname
    · intro id a b ha hb
      exact kind_unique hloaded ha hb

end Clash

/-! ## Two files -/

/-- Two modules with a variable `count` of their own each. -/
def twoCounts (file file' : String) : Program where
  insts := []
  blocks := []
  funcs := []
  globals := [⟨⟨"count", .internal, file⟩, .int 32, none⟩,
    ⟨⟨"count", .internal, file'⟩, .int 32, none⟩]
  structs := []
  consts := []

def twoModules (file file' : String) : List Module := [⟨file, [0], []⟩, ⟨file', [1], []⟩]

/-- Two modules that are read from different files. -/
theorem loaded_twoCounts {file file' : String} (h : file ≠ file') :
    Loaded (twoCounts file file') (twoModules file file') fun _ => [] := by
  constructor
  · simpa [twoModules] using h
  · simp [twoModules, Module.symbols, Symbol.value, twoCounts, Program.global]
  · simp [twoModules, Module.symbols]
  · simp [twoModules, Module.symbols, Symbol.value, twoCounts, Program.global, CIdentifier]
  · simp

/-- The files `net/core.ll` and `block/core.ll` have one stem, and so their
variables have one identifier. -/
theorem core_not_distinct :
    Loaded (twoCounts "net/core.ll" "block/core.ll") (twoModules "net/core.ll" "block/core.ll")
        (fun _ => []) ∧
      ¬IdsDistinct .withPaths (twoCounts "net/core.ll" "block/core.ll")
        (twoModules "net/core.ll" "block/core.ll") fun _ => [] := by
  refine ⟨loaded_twoCounts (by decide), fun h => ?_⟩
  have hid : getVarId .withPaths ⟨"count", .internal, "net/core.ll"⟩ = "var._core.count" := by
    decide
  have hid' : getVarId .withPaths ⟨"count", .internal, "block/core.ll"⟩ = "var._core.count" := by
    decide
  exact h.symbols _ (List.mem_cons_self ..) _ (List.mem_cons_of_mem _ (List.mem_cons_self ..))
    (.var 0) (List.mem_cons_self ..) (.var 1) (List.mem_cons_self ..) (by decide) rfl
    "var._core.count" hid.symm hid'.symm

/-- With different stems, the two variables have different identifiers. -/
theorem filter_distinct :
    IdsDistinct .withPaths (twoCounts "net/core.ll" "net/filter.ll")
      (twoModules "net/core.ll" "net/filter.ll") fun _ => [] := by
  have hstem : pathStem "net/core.ll" ≠ pathStem "net/filter.ll" := by decide
  refine (idsDistinct_iff _ _ _ _ (loaded_twoCounts (by decide))).mpr ⟨?_, by simp⟩
  intro M hM M' hM' hfile hstem'
  simp only [twoModules, List.mem_cons, List.not_mem_nil, or_false] at hM hM'
  rcases hM with rfl | rfl <;> rcases hM' with rfl | rfl
  · exact absurd rfl hfile
  · exact absurd hstem' hstem
  · exact absurd hstem'.symm hstem
  · exact absurd rfl hfile

end Kint
