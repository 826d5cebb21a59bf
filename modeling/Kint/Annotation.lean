import Kint.LLVM.IR

/-!
# Identifiers

`Annotation.h` names the places through which values flow between functions: a global variable,
an argument, a return value, a field of a struct type.  The identifiers are strings, and the
passes key their maps by them; the empty string stands for "no identifier".

## What an identifier is made of

* The kind of the place is a prefix: `var.`, `arg.`, `ret.`, and `struct.` or `union.` as part
  of the name of a struct type.
* Then comes the name of the variable, of the function or of the type, in its scope: a name that
  other modules do not see is prefixed with the stem of the file of its module (`getScopeName`,
  `getStructScopeName`).
* Arguments and fields have their number behind a dot.

A load or a store has no name of its own.  `AnnotationPass` attaches the identifier of the place
that its pointer leads to (see `Kint.Address`), and `getLoadStoreId` reads it back.  A call has
the identifier of the return value of what it calls, which for an indirect call is derived from
the identifier of the called value.

Which entities share an identifier is the subject of `Kint.Identity`.
-/

namespace Kint

/-- `StringRef::startswith` -/
def startswith (s pre : String) : Bool := pre.toList.isPrefixOf s.toList

/-- `StringRef::find('.') != npos` -/
def hasDot (s : String) : Bool := s.toList.contains '.'

section Ids

variable (L : Library) (P : Program)

/-- `getScopeName(GlobalValue *)`: only external linkage gives a name that other
modules see; anything else is prefixed with the name of its module. -/
def getScopeName (G : GlobalValue) : String :=
  if G.linkage = .external then G.name
  else "_" ++ L.stem G.moduleIdentifier ++ "." ++ G.name

/-- `getScopeName(StructType *, Module *)`: an anonymous struct is prefixed with
the name of the module. -/
def getStructScopeName (S : StructType) (M : String) : String :=
  if startswith S.name "struct.anon" then
    "struct._" ++ L.stem M ++ String.ofList (S.name.toList.drop 6)
  else S.name

/-- `getLoadStoreId` -/
def getLoadStoreId (i : InstId) : String := (P.inst i).id.getD ""

/-- `getStructId`, in the module with identifier `M`. -/
def getStructId (ty : Ty) (M : String) (offset : ℕ) : String :=
  match ty with
  | .struct s =>
    if (P.struct s).isLiteral then ""
    else getStructScopeName L (P.struct s) M ++ "." ++ toString offset
  | _ => ""

/-- `getVarId` -/
def getVarId (G : GlobalValue) : String := "var." ++ getScopeName L G

/-- `getArgId` -/
def getArgId (f : FuncId) (no : ℕ) : String :=
  "arg." ++ getScopeName L (P.func f).toGlobalValue ++ "." ++ toString no

/-- `getRetId(Function *)` -/
def getRetId (f : FuncId) : String := "ret." ++ getScopeName L (P.func f).toGlobalValue

/-- `getValueId`.  The identifier of an indirect call is derived from that of
the called value, which may be a call again; such a chain visits different
instructions, and `fuel` counts them. -/
def getValueIdAux : (fuel : ℕ) → Value → String
  | 0, _ => ""
  | fuel + 1, v =>
    match v with
    | .argument f no => getArgId L P f no
    | .inst i =>
      match (P.inst i).op with
      | .call (.func f) _ =>
        if startswith (P.func f).name "kint_arg.i" then getLoadStoreId P i
        else getRetId L P f
      | .call callee _ =>
        let sID := getValueIdAux fuel callee
        if sID ≠ "" then "ret." ++ sID else ""
      | .load .. => getLoadStoreId P i
      | .store .. => getLoadStoreId P i
      | _ => ""
    | _ => ""

/-- `getValueId` -/
def getValueId (v : Value) : String := getValueIdAux L P (P.insts.length + 1) v

/-- `getRetId(CallInst *)` -/
def getCallRetId (i : InstId) : String :=
  match (P.inst i).op with
  | .call (.func f) _ => getRetId L P f
  | .call callee _ =>
    let sID := getValueId L P callee
    if sID ≠ "" then "ret." ++ sID else ""
  | _ => ""

end Ids

/-- Every function has an identifier for its return value. -/
theorem getRetId_ne_empty (L : Library) (P : Program) (f : FuncId) :
    getRetId L P f ≠ "" := by
  simp [getRetId, String.ext_iff]

theorem getArgId_ne_empty (L : Library) (P : Program) (f : FuncId) (no : ℕ) :
    getArgId L P f no ≠ "" := by
  simp [getArgId, String.ext_iff]

end Kint
