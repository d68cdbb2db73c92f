import HotPatch.Proofs.Module.NestedNames
import HotPatch.Proofs.Separators

/-!
# Reflection names tell types apart

A reflection name is the text of a tree of named types, instantiations, vectors
and references, in which no type specification is left. Brackets stand for vectors
and for arguments, commas between arguments and in front of assemblies, and the
assembly of a whole tree comes last. Read from its end, such a text can have come
from one tree only: the last two characters tell what was written last, and what
stands in front of a name is nothing, or ends in an opening bracket.
-/

namespace HotPatch

/-- The characters between the parts of a reflection name. -/
def separators : List Char := ['[', ']', ',', '&']

/-- No separator occurs in the text. -/
def PlainText (text : String) : Prop := ∀ c ∈ text.toList, c ∉ separators

instance (text : String) : Decidable (PlainText text) := List.decidableBAll _ text.toList

namespace PlainText

theorem append {a b : String} (ha : PlainText a) (hb : PlainText b) : PlainText (a ++ b) := by
  intro c hc
  rw [String.toList_append, List.mem_append] at hc
  exact hc.elim (ha c) (hb c)

theorem notMem_reverse {text : String} (h : PlainText text) {c : Char} (hc : c ∈ separators) :
    c ∉ text.toList.reverse :=
  fun hm => h c (List.mem_reverse.mp hm) hc

theorem find?_eq_none {text : String} (h : PlainText text) : text.toList.reverse.find? (· ∈ separators) = none := by
  rw [List.find?_eq_none]
  intro c hc hsep
  exact h.notMem_reverse (of_decide_eq_true hsep) hc

end PlainText

structure QualifiedName.Plain (qualified : QualifiedName) : Prop where
  name : PlainText qualified.name
  assembly : ∀ assembly ∈ qualified.assembly, PlainText assembly

/-- What a signature names, with all type specifications looked through. -/
inductive ReflectedType where
  | named (name : QualifiedName)
  | generic (base : ReflectedType) (args : List ReflectedType)
  | vector (element : ReflectedType)
  | byRef (target : ReflectedType)

namespace ReflectedType

def render : ReflectedType → QualifiedName
  | .named name => name
  | .generic base args =>
    base.render.append ("[" ++ ",".intercalate (args.map fun arg => "[" ++ arg.render.text ++ "]") ++ "]")
  | .vector element => element.render.append "[]"
  | .byRef target => target.render.append "&"

/-- The names in the tree and the lists of arguments satisfy the conditions. -/
inductive All (names : QualifiedName → Prop) (lists : List ReflectedType → Prop) : ReflectedType → Prop
  | named {name : QualifiedName} (hname : names name) : All names lists (.named name)
  | generic {base : ReflectedType} {args : List ReflectedType} (hbase : All names lists base) (hlist : lists args)
    (hargs : ∀ arg ∈ args, All names lists arg) : All names lists (.generic base args)
  | vector {element : ReflectedType} (helement : All names lists element) : All names lists (.vector element)
  | byRef {target : ReflectedType} (htarget : All names lists target) : All names lists (.byRef target)

/-- Every instantiation has arguments. -/
def Instantiated : ReflectedType → Prop := All (fun _ => True) (· ≠ [])

/-- Every instantiation has arguments, and the names are plain. -/
def Legible : ReflectedType → Prop := All QualifiedName.Plain (· ≠ [])

/-- The tree with vectors in the place of instantiations without arguments, which are written like them. -/
def canonical : ReflectedType → ReflectedType
  | .named name => .named name
  | .generic base args => if args = [] then .vector base.canonical else .generic base.canonical (args.map canonical)
  | .vector element => .vector element.canonical
  | .byRef target => .byRef target.canonical

section Canonical

variable {names : QualifiedName → Prop} {lists : List ReflectedType → Prop} {type : ReflectedType}

theorem Instantiated.canonical_eq (h : type.Instantiated) : type.canonical = type := by
  induction h with
  | named => rw [canonical]
  | generic _ hlist _ hbase hargs => rw [canonical, if_neg hlist, hbase, List.map_congr_left hargs, List.map_id']
  | vector _ ih => rw [canonical, ih]
  | byRef _ ih => rw [canonical, ih]

theorem All.render_canonical (h : type.All names lists) : type.canonical.render = type.render := by
  induction h with
  | named => rw [canonical]
  | @generic base args _ _ _ hbase hargs =>
    rw [canonical]
    split_ifs with hempty
    · rw [hempty, render, render, hbase]
      rfl
    · have hall : args.map ((fun arg => "[" ++ arg.render.text ++ "]") ∘ canonical) =
          args.map fun arg => "[" ++ arg.render.text ++ "]" :=
        List.map_congr_left fun arg ha => by rw [Function.comp_apply, hargs arg ha]
      rw [render, render, hbase, List.map_map, hall]
  | vector _ ih => rw [canonical, render, render, ih]
  | byRef _ ih => rw [canonical, render, render, ih]

theorem All.canonical (h : type.All names lists) : type.canonical.All names (· ≠ []) := by
  induction h with
  | named hname =>
    rw [ReflectedType.canonical]
    exact .named hname
  | generic _ _ _ hbase hargs =>
    rw [ReflectedType.canonical]
    split_ifs with hempty
    · exact .vector hbase
    · exact .generic hbase (by simpa using hempty) (List.forall_mem_map.mpr hargs)
  | vector _ ih =>
    rw [ReflectedType.canonical]
    exact .vector ih
  | byRef _ ih =>
    rw [ReflectedType.canonical]
    exact .byRef ih

end Canonical

/-- The name without the assembly, from its last character to its first. -/
def backward (type : ReflectedType) : List Char := type.render.name.toList.reverse

/-- The name with the assembly, from its last character to its first. -/
def backwardText (type : ReflectedType) : List Char := type.render.text.toList.reverse

/-- An argument that others follow, from the comma behind it to the bracket in front of it. -/
def backwardArg (arg : ReflectedType) : List Char := ',' :: ']' :: (arg.backwardText ++ ['['])

section Writing

variable {type base element target : ReflectedType} {name : QualifiedName} {assembly : String}

theorem backward_named : (named name).backward = name.name.toList.reverse := by rw [backward, render]

theorem backward_vector : (vector element).backward = ']' :: '[' :: element.backward := by
  simp [backward, render, QualifiedName.append]

theorem backward_byRef : (byRef target).backward = '&' :: target.backward := by
  simp [backward, render, QualifiedName.append]

theorem toList_intercalate_reverse (last : String) (more : List String) :
    (",".intercalate (last :: more).reverse).toList.reverse =
      last.toList.reverse ++ more.flatMap fun part => ',' :: part.toList.reverse := by
  induction more generalizing last with
  | nil => simp
  | cons next more ih =>
    rw [List.reverse_cons, String.intercalate_append_of_ne_nil (by simp) (by simp), String.intercalate_singleton,
      String.toList_append, List.reverse_append, String.toList_append, List.reverse_append, ih]
    rfl

theorem backward_generic (last : ReflectedType) (more : List ReflectedType) :
    (generic base (last :: more).reverse).backward =
      ']' :: ']' :: (last.backwardText ++ '[' :: (more.flatMap backwardArg ++ '[' :: base.backward)) := by
  have hparts : (",".intercalate ((last :: more).reverse.map fun arg => "[" ++ arg.render.text ++ "]")).toList.reverse =
      ']' :: (last.backwardText ++ '[' :: more.flatMap backwardArg) := by
    have harg : backwardArg = fun arg => ',' :: ("[" ++ arg.render.text ++ "]").toList.reverse := by
      funext arg
      simp [backwardArg, backwardText]
    rw [List.map_reverse, List.map_cons, toList_intercalate_reverse, List.flatMap_map, harg]
    simp [backwardText]
  rw [backward, render]
  simp only [QualifiedName.append, String.toList_append, List.reverse_append, hparts]
  simp [backward]

theorem backwardText_of_none (h : type.render.assembly = none) : type.backwardText = type.backward := by
  rw [backwardText, QualifiedName.text, h, backward]

theorem backwardText_of_some (h : type.render.assembly = some assembly) :
    type.backwardText = (assembly.toList.reverse ++ [' ']) ++ ',' :: type.backward := by
  rw [backwardText, QualifiedName.text, h, backward]
  simp

end Writing

/-- In front of a name there is nothing, or an opening bracket. -/
def Outside (rest : List Char) : Prop := rest = [] ∨ ∃ more, rest = '[' :: more

/-- Which of the four forms a type has. -/
inductive Form where
  | named | generic | vector | byRef

def form : ReflectedType → Form
  | .named _ => .named
  | .generic _ _ => .generic
  | .vector _ => .vector
  | .byRef _ => .byRef

/-- The form that the end of a text shows. -/
def formAt : List Char → Form
  | ']' :: '[' :: _ => .vector
  | ']' :: _ => .generic
  | '&' :: _ => .byRef
  | _ => .named

theorem formAt_of_notMem {c : Char} (h : c ∉ separators) (rest : List Char) : formAt (c :: rest) = .named := by
  unfold formAt
  split <;> simp_all [separators]

section Reading

variable {s t : ReflectedType} {p q : List Char}

/-- The last argument comes first, since there is one. -/
theorem exists_last {args : List ReflectedType} (h : args ≠ []) : ∃ last more, args = (last :: more).reverse := by
  obtain ⟨last, more, hargs⟩ := List.exists_cons_of_ne_nil (mt List.reverse_eq_nil_iff.mp h)
  exact ⟨last, more, by rw [← hargs, List.reverse_reverse]⟩

/-- The end of the text shows the form. -/
theorem Legible.formAt_backward (hs : s.Legible) (hp : Outside p) : formAt (s.backward ++ p) = s.form := by
  cases hs with
  | @named name hname =>
    rw [backward_named, form]
    rcases hr : name.name.toList.reverse with - | ⟨c, cs⟩
    · obtain rfl | ⟨more, rfl⟩ := hp <;> rfl
    · exact formAt_of_notMem (fun hc => hname.name.notMem_reverse hc (by simp [hr])) _
  | generic _ hlist =>
    obtain ⟨last, more, rfl⟩ := exists_last hlist
    rw [backward_generic, form]
    rfl
  | vector =>
    rw [backward_vector, form]
    rfl
  | byRef =>
    rw [backward_byRef, form]
    rfl

theorem Legible.form_eq (hs : s.Legible) (ht : t.Legible) (hp : Outside p) (hq : Outside q)
    (h : s.backward ++ p = t.backward ++ q) : s.form = t.form := by
  rw [← hs.formAt_backward hp, h, ht.formAt_backward hq]

/-- Coming from the end, the first separator of a name is no comma. -/
theorem Legible.find?_backward (hs : s.Legible) (hp : Outside p) :
    (s.backward ++ p).find? (· ∈ separators) ≠ some ',' := by
  cases hs with
  | named hname =>
    rw [backward_named, List.find?_append, hname.name.find?_eq_none]
    obtain rfl | ⟨more, rfl⟩ := hp <;> simp [separators]
  | generic _ hlist =>
    obtain ⟨last, more, rfl⟩ := exists_last hlist
    rw [backward_generic]
    simp [separators]
  | vector =>
    rw [backward_vector]
    simp [separators]
  | byRef =>
    rw [backward_byRef]
    simp [separators]

/-- In front of an assembly, it is one. -/
theorem find?_assembly {assembly : String} (h : PlainText assembly) :
    (assembly.toList.reverse ++ [' '] ++ ',' :: p).find? (· ∈ separators) = some ',' := by
  rw [List.append_assoc, List.find?_append, h.find?_eq_none]
  simp [separators]

theorem Legible.assembly (h : s.Legible) : ∀ assembly ∈ s.render.assembly, PlainText assembly := by
  induction h with
  | named hname =>
    rw [render]
    exact hname.assembly
  | generic _ _ _ ih =>
    rw [render]
    exact ih
  | vector _ ih =>
    rw [render]
    exact ih
  | byRef _ ih =>
    rw [render]
    exact ih

/-- Plain texts in front of what can stand outside are told apart by it. -/
theorem append_outside_inj {a b : List Char} (ha : '[' ∉ a) (hb : '[' ∉ b) (hp : Outside p) (hq : Outside q)
    (h : a ++ p = b ++ q) : a = b ∧ p = q := by
  obtain rfl | ⟨p, rfl⟩ := hp <;> obtain rfl | ⟨q, rfl⟩ := hq
  · simpa using h
  · exact absurd (by simp [show a = b ++ '[' :: q by simpa using h]) ha
  · exact absurd (by simp [show b = a ++ '[' :: p by simpa using h.symm]) hb
  · obtain ⟨rfl, rfl⟩ := append_first_separator_inj ha hb h
    exact ⟨rfl, rfl⟩

/-- The end of a text tells where the name of the type begins. It tells the type as well, apart from the assembly,
which is written elsewhere. -/
def Recovered (s : ReflectedType) : Prop :=
  ∀ ⦃t : ReflectedType⦄ ⦃p q : List Char⦄, t.Legible → Outside p → Outside q → s.backward ++ p = t.backward ++ q →
    p = q ∧ (s.render.assembly = t.render.assembly → s = t)

/-- With its assembly, a type is read back completely. -/
theorem Recovered.text (h : s.Recovered) (hs : s.Legible) (ht : t.Legible) (hp : Outside p) (hq : Outside q)
    (htext : s.backwardText ++ p = t.backwardText ++ q) : s = t ∧ p = q := by
  rcases hsa : s.render.assembly with - | a <;> rcases hta : t.render.assembly with - | b
  · rw [backwardText_of_none hsa, backwardText_of_none hta] at htext
    obtain ⟨hrest, htype⟩ := h ht hp hq htext
    exact ⟨htype (by rw [hsa, hta]), hrest⟩
  · rw [backwardText_of_none hsa, backwardText_of_some hta, List.append_assoc] at htext
    refine absurd ?_ (hs.find?_backward hp)
    rw [htext]
    exact find?_assembly (ht.assembly b hta)
  · rw [backwardText_of_some hsa, backwardText_of_none hta, List.append_assoc] at htext
    refine absurd ?_ (ht.find?_backward hq)
    rw [← htext]
    exact find?_assembly (hs.assembly a hsa)
  · -- neither assembly reaches beyond the comma in front of it
    have hcomma : ∀ {assembly : String}, PlainText assembly → ',' ∉ assembly.toList.reverse ++ [' '] := by
      intro assembly hplain
      simpa using hplain.notMem_reverse (c := ',') (by decide)
    rw [backwardText_of_some hsa, backwardText_of_some hta, List.append_assoc _ _ p, List.append_assoc _ _ q] at htext
    obtain ⟨hassembly, hname⟩ :=
      append_first_separator_inj (hcomma (hs.assembly a hsa)) (hcomma (ht.assembly b hta)) htext
    obtain ⟨hrest, htype⟩ := h ht hp hq hname
    have hab : a = b := String.toList_inj.mp (by simpa using hassembly)
    exact ⟨htype (by rw [hsa, hta, hab]), hrest⟩

/-- Arguments are read back one after another, up to the bracket that opens the list. -/
theorem backwardArgs_inj {xs ys : List ReflectedType} (hxs : ∀ x ∈ xs, x.Recovered ∧ x.Legible)
    (hys : ∀ y ∈ ys, y.Legible) (h : xs.flatMap backwardArg ++ '[' :: p = ys.flatMap backwardArg ++ '[' :: q) :
    xs = ys ∧ p = q := by
  induction xs generalizing ys with
  | nil =>
    rcases ys with - | ⟨y, ys⟩
    · simpa using h
    · simp [backwardArg] at h
  | cons x xs ih =>
    rcases ys with - | ⟨y, ys⟩
    · simp [backwardArg] at h
    · rw [List.forall_mem_cons] at hxs hys
      simp only [List.flatMap_cons, backwardArg, List.cons_append, List.append_assoc, List.nil_append, List.cons.injEq,
        true_and] at h
      obtain ⟨rfl, hrest⟩ := hxs.1.1.text hxs.1.2 hys.1 (.inr ⟨_, rfl⟩) (.inr ⟨_, rfl⟩) h
      obtain ⟨rfl, hpq⟩ := ih hxs.2 hys.2 (List.cons.inj hrest).2
      exact ⟨rfl, hpq⟩

theorem recovered_named {name : QualifiedName} (hname : name.Plain) : (named name).Recovered := by
  intro t p q ht hp hq h
  have hform := Legible.form_eq (.named hname) ht hp hq h
  cases ht with
  | @named other hother =>
    rw [backward_named, backward_named] at h
    obtain ⟨hnames, hrest⟩ := append_outside_inj (hname.name.notMem_reverse (by decide))
      (hother.name.notMem_reverse (by decide)) hp hq h
    refine ⟨hrest, fun hassembly => ?_⟩
    rw [render, render] at hassembly
    obtain ⟨text, assembly⟩ := name
    obtain ⟨text', assembly'⟩ := other
    obtain rfl : text = text' := String.toList_inj.mp (List.reverse_inj.mp hnames)
    rw [show assembly = assembly' from hassembly]
  | generic => cases hform
  | vector => cases hform
  | byRef => cases hform

theorem recovered_generic {base : ReflectedType} {args : List ReflectedType} (hs : (generic base args).Legible)
    (hbase : base.Recovered) (hargs : ∀ arg ∈ args, arg.Recovered ∧ arg.Legible) :
    (generic base args).Recovered := by
  intro t p q ht hp hq h
  have hform := Legible.form_eq hs ht hp hq h
  cases ht with
  | @generic base' args' hbase' hlist' hargs' =>
    cases hs with
    | generic _ hlist =>
      obtain ⟨last, more, rfl⟩ := exists_last hlist
      obtain ⟨last', more', rfl⟩ := exists_last hlist'
      -- from the end: the last argument, the arguments in front of it, and then the base
      simp only [List.mem_reverse, List.forall_mem_cons] at hargs hargs'
      simp only [backward_generic, List.cons_append, List.append_assoc, List.cons.injEq, true_and] at h
      obtain ⟨rfl, hmore⟩ := hargs.1.1.text hargs.1.2 hargs'.1 (.inr ⟨_, rfl⟩) (.inr ⟨_, rfl⟩) h
      obtain ⟨rfl, hrest⟩ := backwardArgs_inj hargs.2 hargs'.2 (List.cons.inj hmore).2
      obtain ⟨hpq, htype⟩ := hbase hbase' hp hq hrest
      refine ⟨hpq, fun hassembly => ?_⟩
      rw [render, render] at hassembly
      rw [htype hassembly]
  | named => cases hform
  | vector => cases hform
  | byRef => cases hform

theorem recovered_vector {element : ReflectedType} (hs : element.Legible) (helement : element.Recovered) :
    (vector element).Recovered := by
  intro t p q ht hp hq h
  have hform := Legible.form_eq (.vector hs) ht hp hq h
  cases ht with
  | @vector element' helement' =>
    rw [backward_vector, backward_vector] at h
    obtain ⟨hrest, htype⟩ := helement helement' hp hq (by simpa using h)
    refine ⟨hrest, fun hassembly => ?_⟩
    rw [render, render] at hassembly
    rw [htype hassembly]
  | named => cases hform
  | generic => cases hform
  | byRef => cases hform

theorem recovered_byRef {target : ReflectedType} (hs : target.Legible) (htarget : target.Recovered) :
    (byRef target).Recovered := by
  intro t p q ht hp hq h
  have hform := Legible.form_eq (.byRef hs) ht hp hq h
  cases ht with
  | @byRef target' htarget' =>
    rw [backward_byRef, backward_byRef] at h
    obtain ⟨hrest, htype⟩ := htarget htarget' hp hq (by simpa using h)
    refine ⟨hrest, fun hassembly => ?_⟩
    rw [render, render] at hassembly
    rw [htype hassembly]
  | named => cases hform
  | generic => cases hform
  | vector => cases hform

/-- Reading from the end is unambiguous. -/
theorem Legible.recovered (hs : s.Legible) : s.Recovered := by
  induction hs with
  | named hname => exact recovered_named hname
  | generic hb hlist ha hbase hargs =>
    exact recovered_generic (.generic hb hlist ha) hbase fun arg hm => ⟨hargs arg hm, ha arg hm⟩
  | vector helement ih => exact recovered_vector helement ih
  | byRef htarget ih => exact recovered_byRef htarget ih

/-- Different trees have different texts. -/
theorem Legible.eq_of_text_eq (hs : s.Legible) (ht : t.Legible) (h : s.render.text = t.render.text) : s = t := by
  have htext : s.backwardText ++ [] = t.backwardText ++ [] := by rw [backwardText, h, backwardText]
  exact (hs.recovered.text hs ht (.inl rfl) (.inl rfl) htext).1

end Reading

end ReflectedType

namespace Module

variable {module : Module}

/-- What a signature names, followed through at most the given number of levels. -/
def reflected (module : Module) : Nat → TypeSig → Result ReflectedType
  | 0, _ => .error (.recursionLimit levelLimit)
  | levels + 1, sig =>
    let named (token : Token) : Result ReflectedType :=
      if token.isIn .typeSpec then do
        let spec ← require (module.typeSpec? token) token
        reflected module levels spec.sig
      else do
        let name ← module.nestedName levels token
        return .named ⟨name.text "+", qualifier name⟩
    match sig with
    | .primitive type => .ok (.named ⟨type.reflectionName, none⟩)
    | .class token => named token
    | .valueType token => named token
    | .typeParam index => .error (.notConcrete (.typeParam index))
    | .methodParam index => .error (.notConcrete (.methodParam index))
    | .generic base args => return .generic (← reflected module levels base) (← args.mapM (reflected module levels))
    | .vector element => return .vector (← reflected module levels element)
    | .byRef target => return .byRef (← reflected module levels target)

/-- The names and assemblies in the tables are plain. -/
structure PlainNames (module : Module) : Prop where
  typeDefs : ∀ type ∈ module.typeDefs, PlainText type.name.space ∧ PlainText type.name.simple
  typeRefs : ∀ type ∈ module.typeRefs, PlainText type.name.space ∧ PlainText type.name.simple
  assemblies : ∀ type ∈ module.typeRefs, ∀ assembly, type.scope = .assembly assembly → PlainText assembly

/-- The tree is the one that is written. -/
theorem qualifiedName_eq (levels : Nat) (sig : TypeSig) :
    module.qualifiedName levels sig = (module.reflected levels sig).map ReflectedType.render := by
  induction levels generalizing sig with
  | zero => rfl
  | succ levels ih =>
    cases sig with
    | primitive type => exact congrArg Except.ok (by rw [ReflectedType.render])
    | «class» token | valueType token =>
      rw [qualifiedName, reflected]
      dsimp only
      split_ifs
      · rcases require (module.typeSpec? token) token with error | spec
        · rfl
        · exact ih spec.sig
      · rcases module.nestedName levels token with error | name
        · rfl
        · exact congrArg Except.ok (by rw [ReflectedType.render])
    | typeParam index => rfl
    | methodParam index => rfl
    | generic base args =>
      have hargs : (args.mapM fun arg => do return "[" ++ (← module.qualifiedName levels arg).text ++ "]") =
          (args.mapM (module.reflected levels)).map (List.map fun arg => "[" ++ arg.render.text ++ "]") := by
        rw [← mapM_map]
        congr 1
        funext arg
        rw [ih]
        rcases module.reflected levels arg with error | arg <;> rfl
      rw [qualifiedName, reflected, hargs, ih]
      rcases module.reflected levels base with error | base
      · rfl
      · rcases args.mapM (module.reflected levels) with error | args
        · rfl
        · exact congrArg Except.ok (by rw [ReflectedType.render])
    | vector element =>
      rw [qualifiedName, reflected, ih]
      rcases module.reflected levels element with error | element
      · rfl
      · exact congrArg Except.ok (by rw [ReflectedType.render])
    | byRef target =>
      rw [qualifiedName, reflected, ih]
      rcases module.reflected levels target with error | target
      · rfl
      · exact congrArg Except.ok (by rw [ReflectedType.render])

theorem typeName_plain {name : TypeName} (hspace : PlainText name.space) (hsimple : PlainText name.simple) :
    PlainText name.text := by
  unfold TypeName.text
  split_ifs
  · exact hsimple
  · exact (hspace.append (by decide)).append hsimple

section Plain

variable (hplain : module.PlainNames)

include hplain

theorem Inside.plain {token outer : Token} {simple : String} (h : module.Inside token simple outer) :
    PlainText simple := by
  cases h with
  | definition found => exact (hplain.typeDefs _ (mem_of_rowAt? found)).2
  | reference found => exact (hplain.typeRefs _ (mem_of_rowAt? found)).2

theorem AtTop.plain {token : Token} {name : TypeName} {assembly : Option String}
    (h : module.AtTop token name assembly) :
    PlainText name.text ∧ ∀ found ∈ assembly, PlainText found := by
  cases h with
  | definition found =>
    obtain ⟨hspace, hsimple⟩ := hplain.typeDefs _ (mem_of_rowAt? found)
    exact ⟨typeName_plain hspace hsimple, nofun⟩
  | reference found alone =>
    obtain ⟨hspace, hsimple⟩ := hplain.typeRefs _ (mem_of_rowAt? found)
    refine ⟨typeName_plain hspace hsimple, fun other ho => ?_⟩
    cases ho
    exact hplain.assemblies _ (mem_of_rowAt? found) _ alone

/-- Levels of plain names are joined to plain names. -/
theorem nestedName_plain {levels : Nat} {token : Token} {name : NestedName}
    (h : module.nestedName levels token = .ok name) :
    PlainText (name.text "+") ∧ ∀ assembly ∈ name.assembly, PlainText assembly := by
  induction levels generalizing token name with
  | zero => cases h
  | succ levels ih =>
    rcases module.level_cases token with ⟨simple, outer, step⟩ | ⟨_, _, top⟩ | missing
    · rw [step.nestedName] at h
      obtain ⟨around, houter, rfl⟩ := map_eq_ok.mp h
      obtain ⟨htext, hassembly⟩ := ih houter
      rw [NestedName.text_nest]
      exact ⟨(htext.append (by decide)).append (step.plain hplain), hassembly⟩
    · rw [top.nestedName] at h
      cases h
      exact top.plain hplain
    · rw [missing.nestedName] at h
      cases h

theorem reflected_plain {levels : Nat} {sig : TypeSig} {type : ReflectedType}
    (h : module.reflected levels sig = .ok type) : type.All QualifiedName.Plain fun _ => True := by
  induction levels generalizing sig type with
  | zero => cases h
  | succ levels ih =>
    cases sig with
    | primitive primitive =>
      cases h
      exact .named ⟨by cases primitive <;> decide, nofun⟩
    | «class» token | valueType token =>
      rw [reflected] at h
      dsimp only at h
      split_ifs at h
      · obtain ⟨spec, -, h⟩ := bind_eq_ok.mp h
        exact ih h
      · obtain ⟨name, hname, h⟩ := bind_eq_ok.mp h
        cases h
        obtain ⟨htext, hassembly⟩ := nestedName_plain hplain hname
        exact .named ⟨htext, fun assembly ha => hassembly assembly (Option.mem_filter_iff.mp ha).1⟩
    | typeParam index => cases h
    | methodParam index => cases h
    | generic base args =>
      obtain ⟨base, hbase, h⟩ := bind_eq_ok.mp h
      obtain ⟨args, hargs, h⟩ := bind_eq_ok.mp h
      cases h
      refine .generic (ih hbase) trivial fun arg ha => ?_
      obtain ⟨sig, -, hsig⟩ := exists_of_mem_mapM hargs ha
      exact ih hsig
    | vector element =>
      obtain ⟨element, helement, h⟩ := bind_eq_ok.mp h
      cases h
      exact .vector (ih helement)
    | byRef target =>
      obtain ⟨target, htarget, h⟩ := bind_eq_ok.mp h
      cases h
      exact .byRef (ih htarget)

theorem reflectionName_ok {sig : TypeSig} {text : String} (h : module.reflectionName sig = .ok text) :
    ∃ type, module.reflected (levelLimit + 1) sig = .ok type ∧ type.All QualifiedName.Plain (fun _ => True) ∧
      type.render.text = text := by
  obtain ⟨name, hname, h⟩ := bind_eq_ok.mp h
  rw [qualifiedName_eq] at hname
  obtain ⟨type, htype, rfl⟩ := map_eq_ok.mp hname
  cases h
  exact ⟨type, htype, reflected_plain hplain htype, rfl⟩

/-- Two signatures have the same reflection name exactly if they name the same, up to instantiations without
arguments, which are written like vectors. -/
theorem reflectionName_eq_iff {a b : TypeSig} {text other : String} (ha : module.reflectionName a = .ok text)
    (hb : module.reflectionName b = .ok other) :
    ∃ s t, module.reflected (levelLimit + 1) a = .ok s ∧ module.reflected (levelLimit + 1) b = .ok t ∧
      (text = other ↔ s.canonical = t.canonical) ∧ (s.Instantiated → t.Instantiated → (text = other ↔ s = t)) := by
  obtain ⟨s, hs, hsplain, rfl⟩ := reflectionName_ok hplain ha
  obtain ⟨t, ht, htplain, rfl⟩ := reflectionName_ok hplain hb
  have hslegible : s.canonical.Legible := hsplain.canonical
  have hiff : s.render.text = t.render.text ↔ s.canonical = t.canonical := by
    rw [← hsplain.render_canonical, ← htplain.render_canonical]
    exact ⟨hslegible.eq_of_text_eq htplain.canonical, fun h => by rw [h]⟩
  refine ⟨s, t, hs, ht, hiff, fun hsi hti => ?_⟩
  rw [hiff, hsi.canonical_eq, hti.canonical_eq]

end Plain

/-- A module in which a list of enemies has a type specification. -/
def enemyModule : Module :=
  { name := "Patch"
    typeRefs := #[⟨.assembly "mscorlib", ⟨"System.Collections.Generic", "List`1"⟩⟩,
      ⟨.assembly "Assembly-CSharp", ⟨"Game", "Enemy"⟩⟩]
    typeSpecs := #[⟨.generic (.class (.ofRow .typeRef 1)) [.class (.ofRow .typeRef 2)]⟩] }

def enemyList : ReflectedType :=
  .generic (.named ⟨"System.Collections.Generic.List`1", none⟩) [.named ⟨"Game.Enemy", some "Assembly-CSharp"⟩]

/-- The specification has the name of the list, so it names the list. -/
theorem reflectionName_eq_iff_specification :
    enemyModule.PlainNames ∧
      enemyModule.reflectionName (.generic (.class (.ofRow .typeRef 1)) [.class (.ofRow .typeRef 2)]) =
        .ok "System.Collections.Generic.List`1[[Game.Enemy, Assembly-CSharp]]" ∧
      enemyModule.reflectionName (.class (.ofRow .typeSpec 1)) =
        .ok "System.Collections.Generic.List`1[[Game.Enemy, Assembly-CSharp]]" ∧
      enemyModule.reflected (levelLimit + 1)
        (.generic (.class (.ofRow .typeRef 1)) [.class (.ofRow .typeRef 2)]) = .ok enemyList ∧
      enemyList.Instantiated ∧
      ∃ type, enemyModule.reflected (levelLimit + 1) (.class (.ofRow .typeSpec 1)) = .ok type ∧
        type.canonical = enemyList := by
  have hplain : enemyModule.PlainNames := by
    refine ⟨by decide, by decide, fun type ht assembly hs => ?_⟩
    obtain rfl | rfl : type = ⟨.assembly "mscorlib", ⟨"System.Collections.Generic", "List`1"⟩⟩ ∨
      type = ⟨.assembly "Assembly-CSharp", ⟨"Game", "Enemy"⟩⟩ := by simpa [enemyModule] using ht
    · cases hs
      decide
    · cases hs
      decide
  have ha : enemyModule.reflectionName (.generic (.class (.ofRow .typeRef 1)) [.class (.ofRow .typeRef 2)]) =
      .ok "System.Collections.Generic.List`1[[Game.Enemy, Assembly-CSharp]]" :=
    eq_ok_of_toOption (by decide +kernel)
  have hb : enemyModule.reflectionName (.class (.ofRow .typeSpec 1)) =
      .ok "System.Collections.Generic.List`1[[Game.Enemy, Assembly-CSharp]]" :=
    eq_ok_of_toOption (by decide +kernel)
  have hlist : enemyList.Instantiated :=
    .generic (.named trivial) (List.cons_ne_nil _ _) (List.forall_mem_singleton.mpr (.named trivial))
  have hreflected : enemyModule.reflected (levelLimit + 1)
      (.generic (.class (.ofRow .typeRef 1)) [.class (.ofRow .typeRef 2)]) = .ok enemyList := by rfl
  obtain ⟨s, t, hs, ht, hiff, -⟩ := reflectionName_eq_iff hplain ha hb
  obtain rfl : enemyList = s := Except.ok.inj (hreflected.symm.trans hs)
  exact ⟨hplain, ha, hb, hreflected, hlist, t, ht, (hiff.mp rfl).symm.trans hlist.canonical_eq⟩

end Module
end HotPatch
