import Ambient.Scope.Question

/-!
# What a name denotes

The first part of a name is looked for in this order, and the first place with a result decides:

1. type parameters and mapped-type keys in force (they denote no declaration);
2. the containers around, innermost first, with their global blocks, inline exports and imports;
3. ambient modules of that name;
4. the augmentations of modules in the file;
5. the files of the dependencies.

Each further part is looked for among what the container found so far makes visible: its named
declarations and what its exports bind.

Looking up a name takes what imports and exports bind, and that takes looking up names.
-/

namespace Ambient

namespace Scope

/-- The ambient modules named `x` among the declarations that the scope is directly inside. -/
def modulesNamed (s : Scope) (x : Ident) : List Found :=
  s.members.filterMap fun
    | .module h ms => if h.name = x then some ⟨.module h ms, s⟩ else none
    | _ => none

/-- The modules named `x`: those of the file, those of the dependencies, and the dependency of that
name seen as a module. -/
def moduleScopes (s : Scope) (x : Ident) : List Found :=
  (s.fileScope?.toList ++ s.dependencyScopes).flatMap (·.modulesNamed x) ++
    (s.root.deps.find? x).toList.flatMap fun d =>
      (s.dependencyRoot? x).toList.map fun r => ⟨d.module, r⟩

/-- The augmentations in the file, directly or inside one of its modules. -/
def augmentations (s : Scope) : List Found :=
  s.fileScope?.toList.flatMap fun file =>
    file.members.flatMap fun
      | .augmentation h ms => [⟨.augmentation h ms, file⟩]
      | .module h ms =>
        let inner := file.enter (.decl (.module h ms))
        ms.filterMap fun
          | .augmentation h ms => some ⟨.augmentation h ms, inner⟩
          | _ => none
      | _ => []

end Scope

/-- The bindings of the name `x`. -/
def bindingsOf (x : Ident) (bs : List Binding) : List Found :=
  (bs.filter fun b => b.name == x).map (·.found)

/-- The bindings of the name `x`, under the name `y`. -/
def rebind (x y : Ident) (bs : List Binding) : List Binding :=
  (bindingsOf x bs).map fun f => ⟨y, f⟩

/-- Binds a name to each of the declarations. -/
def bindAll (x : Ident) (fs : List Found) : List Binding :=
  fs.map fun f => ⟨x, f⟩

mutual

/-- The declarations named `x` that a member of a container contributes. -/
def findIn (x : Ident) (s : Scope) : Decl → Search (List Found)
  | .global h ms => findInList x (s.enter (.decl (.global h ms))) ms
  | .imports i => return bindingsOf x (← Search.about (.imported s i))
  | .exports _ (.inline (.module _ _)) | .exports _ (.inline (.augmentation _ _)) => return []
  | .exports _ (.inline d) => return if d.name? = some x then [⟨d, s⟩] else []
  | .exports _ _ | .module _ _ | .augmentation _ _ | .exportAs _ => return []
  | d => return if d.name? = some x then [⟨d, s⟩] else []

def findInList (x : Ident) (s : Scope) : List Decl → Search (List Found)
  | [] => return []
  | d :: ds => return (← findIn x s d) ++ (← findInList x s ds)

end

/-- The declarations named `x` in the container that the scope is directly inside. -/
def findMember (s : Scope) (x : Ident) : Search (List Found) :=
  findInList x s s.members

/-- What a member of the container of `s` makes visible from outside. -/
def exportedFrom (s : Scope) : Decl → Search (List Binding)
  | .exports h e => Search.about (.exported s h e)
  | .imports _ | .global _ _ | .exportAs _ | .module _ _ | .augmentation _ _ => return []
  | d => return (d.name?.map fun x => ⟨x, ⟨d, s⟩⟩).toList

/-- All that the container of the scope makes visible from outside: its named declarations and what
its exports bind. Whether a declaration is exported does not matter. Where the scope is not directly
inside a container, that is nothing. -/
def exportedBy (s : Scope) : Search (List Binding) :=
  concatMapM (exportedFrom s) s.members

/-- Follows the further parts of a name from the declarations that its first part denotes; `picker`
chooses among the declarations at the end. -/
def resolveTail (picker : Picker) : List Ident → List Found → Search (List Found)
  | [], found => return found.filter fun f => picker.pick f.decl
  | x :: rest, found =>
    concatMapM (fun f =>
      match f.decl with
      | .enum _ => return if rest.isEmpty && picker.pick f.decl then [f] else []
      | _ => do resolveTail picker rest (bindingsOf x (← exportedBy f.inner))) found

/-- What the name `head.tail` denotes in the container that the scope is directly inside. -/
def lookupInside (picker : Picker) (head : Ident) (tail : List Ident) (s : Scope) :
    Search (List Found) := do
  resolveTail picker tail (← findMember s head)

/-- What the name `head.tail` denotes in `s`, type parameters and mapped-type keys apart. -/
def lookupThrough (picker : Picker) (s : Scope) (head : Ident) (tail : List Ident) :
    Search (List Found) := do
  let found ← firstNonempty (lookupInside picker head tail) (s.outwards.filter Scope.isContainer)
  if !found.isEmpty then return found
  let found ← concatMapM (fun f => resolveTail picker tail [f]) (s.moduleScopes head)
  if !found.isEmpty then return found
  let found ← concatMapM (fun f => lookupInside picker head tail f.inner) s.augmentations
  if !found.isEmpty then return found
  concatMapM (lookupInside picker head tail) s.dependencyScopes

/-- What the name `q` denotes in `s`. -/
def nameSearch (picker : Picker) (s : Scope) (q : QIdent) : Search (List Found) :=
  match q with
  | [] => return []
  | head :: tail => if s.isSettled q then return [] else lookupThrough picker s head tail

/-- What several forms of an import bind that takes names from modules; `plain` says what the form
`import x` does. -/
def importForms (plain : Ident → Search (List Binding)) (modules : List Found) :
    List Imported → Search (List Binding) :=
  concatMapM fun
    | .name x => plain x
    | .star (some x) => return bindAll x modules
    | .star none => return []
    | .destructured xs => concatMapM (fun f => do
      let exported ← exportedBy f.inner
      return xs.flatMap fun (x, y) => rebind x (y.getD x) exported) modules

/-- What an import binds. -/
def importSearch (s : Scope) (i : ImportDecl) : Search (List Binding) :=
  match i.source with
  | .inner target =>
    concatMapM (fun
      | .name x => return bindAll x (← Search.about (.name .all s target))
      | _ => return []) i.imported
  | .required module =>
    let modules := s.moduleScopes module
    importForms (fun x => return bindAll x modules) modules i.imported
  | .module module =>
    let modules := s.moduleScopes module
    importForms (fun x => concatMapM (fun f => do
      return rebind Ident.defaultExport x (← exportedBy f.inner)) modules) modules i.imported

/-- What an export binds. -/
def exportSearch (s : Scope) (h : ExportHead) (e : Exportee) : Search (List Binding) :=
  match e with
  | .inline d =>
    let name := if h.kind = .defaulted then some Ident.defaultExport else d.name?
    return (name.map fun x => ⟨x, ⟨d, s⟩⟩).toList
  | .names names none =>
    concatMapM (fun (q, y) => do
      let found ← Search.about (.name .all s q)
      match h.kind with
      | .namespaced =>
        concatMapM (fun f => do
          return (← exportedBy f.inner) ++ [⟨Ident.defaultExport, f⟩]) found
      | .defaulted => return bindAll Ident.defaultExport found
      | .named =>
        match y.or q.getLast? with
        | some x => return bindAll x found
        | none => return []) names
  | .names names (some module) =>
    concatMapM (fun f => do
      let exported ← exportedBy f.inner
      return names.flatMap fun (q, y) =>
        match q.getLast? with
        | some x => rebind x (y.getD x) exported
        | none => []) (s.moduleScopes module)
  | .star (some x) module => return bindAll x (s.moduleScopes module)
  | .star none module =>
    concatMapM (fun f => do
      let exported ← exportedBy f.inner
      return exported.filter fun b => b.name != Ident.defaultExport) (s.moduleScopes module)

end Ambient
