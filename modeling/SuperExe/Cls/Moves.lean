import SuperExe.Cls.Reloc

/-! # What the relocation moves

Every function of `reloc.cpp` has the fields reached from its record as its
footprint, and what it does to a field is decided by the role of the field: a
name or a link is moved as it stands, a pointer that may be `NULL` is moved if
it is not, and the nested type of a nested descriptor is not looked at.
-/

namespace SuperExe.Cls

open SuperExe.Lib Decl

variable {m : Mem} {base p : UInt32} {l l₁ l₂ : List Item} {c c₁ c₂ : StateM Mem Unit}
  {f : UInt32 → StateM Mem Unit} {kind k : Kind} {sub : Kind → UInt32 → List Item}
  {count off tag a : UInt32} {depth : Nat}

/-- What is done to a field of the module `m`. -/
def Item.access (m : Mem) (base : UInt32) (i : Item) : Access :=
  match i.role with
  | .scalar size => .read i.addr size
  | .name => .store i.addr (target m base i.addr)
  | .link => .store i.addr (target m base i.addr)
  | .optional =>
    if m.read32 i.addr = 0 then .read i.addr 4 else .store i.addr (target m base i.addr)
  | .deep => .read i.addr 4
  | .empty => .store i.addr 0

/-- The program does to the fields what their roles say, and nothing else. -/
def Moves (m : Mem) (base : UInt32) (l : List Item) (c : StateM Mem Unit) : Prop :=
  Effect m (l.map (Item.access m base)) c

/-! ## Rules -/

theorem moves_nil : Moves m base [] (pure ()) := effect_reads (by simp)

theorem Moves.seq (h₁ : Moves m base l₁ c₁) (h₂ : Moves m base l₂ c₂) :
    Moves m base (l₁ ++ l₂) (do c₁; c₂) := by
  unfold Moves
  rw [List.map_append]
  exact Effect.seq h₁ h₂

theorem Moves.skip (h₁ : Moves m base l₁ (pure ())) (h₂ : Moves m base l₂ c) :
    Moves m base (l₁ ++ l₂) c := h₁.seq h₂

/-- The rest of the fields may be left alone. -/
theorem Moves.rest {i : Item} (h₁ : Moves m base [i] c) (h₂ : Moves m base l (pure ())) :
    Moves m base (i :: l) c := h₁.seq h₂

theorem moves_addBase {role : Role} (hrole : role = .name ∨ role = .link)
    (h : Moves m base l (f (target m base a))) :
    Moves m base (⟨a, role⟩ :: l) (addBase base a >>= f) := by
  have haccess : Item.access m base ⟨a, role⟩ = .store a (target m base a) := by
    rcases hrole with rfl | rfl
    · rfl
    · rfl
  have hbind : addBase base a >>= f =
      load32 a >>= fun v => store32 a (v + base) >>= fun _ => f (v + base) := rfl
  unfold Moves
  rw [List.map_cons, haccess, hbind]
  refine effect_load32 (List.mem_cons_self ..) rfl rfl ?_
  exact effect_store.seq h

theorem moves_addBaseIf : Moves m base [⟨a, .optional⟩] (addBaseIf base a) := by
  have hsize : ((⟨a, .optional⟩ : Item).access m base).addr = a ∧
      ((⟨a, .optional⟩ : Item).access m base).size = 4 := by
    simp only [Item.access]
    split
    · exact ⟨rfl, rfl⟩
    · exact ⟨rfl, rfl⟩
  refine effect_load32 (List.mem_singleton_self _) hsize.1 hsize.2 ?_
  by_cases hnull : m.read32 a = 0
  · rw [if_neg (by simpa using hnull)]
    refine effect_reads ?_
    simp [Item.access, hnull]
  · rw [if_pos hnull]
    simp only [List.map_cons, List.map_nil, Item.access, if_neg hnull]
    exact effect_store

/-! ## Fields -/

theorem moves_name : Moves m base (declItems m base sub kind p (name off))
    (discard (addBase base (p + off))) :=
  moves_addBase (f := fun _ => pure ()) (Or.inl rfl) moves_nil

theorem moves_text : Moves m base (declItems m base sub kind p (text off))
    (addBaseIf base (p + off)) := moves_addBaseIf

theorem moves_textIf : Moves m base (declItems m base sub kind p (textIf tag off))
    (mapStrValue base (p + tag) (p + off)) := by
  unfold Moves declItems mapStrValue
  rw [List.map_cons]
  refine effect_load8 ?_
  split
  · exact moves_addBaseIf
  · exact moves_nil

theorem moves_indexes : Moves m base (declItems m base sub kind p (indexes count off))
    (mapIndexes base (p + count) (p + off)) := by
  unfold Moves declItems mapIndexes
  rw [List.map_cons]
  refine effect_load16 ?_
  by_cases hzero : m.read16 (p + count) = 0
  · rw [if_pos hzero, if_neg (by simpa using hzero)]
    exact moves_nil
  · rw [if_neg hzero, if_pos hzero]
    exact moves_addBase (f := fun _ => pure ()) (Or.inr rfl) moves_nil

theorem moves_desc (hf : ∀ q, Moves m base (sub k q) (f q)) :
    Moves m base (declItems m base sub kind p (desc off k)) (addBase base (p + off) >>= f) :=
  moves_addBase (Or.inr rfl) (hf _)

theorem moves_entries {n : Nat} (hf : ∀ q, Moves m base (sub k q) (f q)) :
    Moves m base ((List.range n).flatMap fun i =>
        ⟨entryAddr m base (p + off) i, .link⟩ ::
          sub k (target m base (entryAddr m base (p + off) i)))
      (mapEntries base (target m base (p + off)) n f) := by
  unfold Moves
  rw [List.map_flatMap]
  refine Effect.forM ?_
  intro i _
  exact moves_addBase (Or.inr rfl) (hf _)

theorem moves_table (hkind : kind ≠ .clsModule) (hf : ∀ q, Moves m base (sub k q) (f q)) :
    Moves m base (declItems m base sub kind p (table count off k))
      (mapTable base (p + count) (p + off) f) := by
  unfold Moves declItems mapTable
  rw [List.map_cons]
  refine effect_load16 ?_
  by_cases hzero : m.read16 (p + count) = 0
  · rw [if_pos hzero, if_neg hkind, if_neg (by simpa using hzero)]
    exact moves_nil
  · rw [if_neg hzero, if_pos hzero]
    exact moves_addBase (Or.inr rfl) (moves_entries hf)

theorem moves_dirs (hf : ∀ q, Moves m base (sub k q) (f q)) :
    Moves m base (declItems m base sub .clsModule p (table count off k))
      (mapDirs base (p + count) (p + off) f) := by
  unfold Moves declItems mapDirs
  rw [List.map_cons]
  refine effect_load16 ?_
  by_cases hzero : m.read16 (p + count) = 0
  · rw [if_pos hzero, if_pos rfl, if_neg (by simpa using hzero)]
    exact effect_store
  · rw [if_neg hzero, if_pos hzero]
    exact moves_addBase (Or.inr rfl) (moves_entries hf)

theorem moves_names :
    Moves m base (declItems m base sub .clsModule p (names count off))
      (mapDirs base (p + count) (p + off) fun _ => pure ()) := by
  unfold Moves declItems mapDirs
  rw [List.map_cons]
  refine effect_load16 ?_
  by_cases hzero : m.read16 (p + count) = 0
  · rw [if_pos hzero, if_pos rfl, if_neg (by simpa using hzero)]
    exact effect_store
  · rw [if_neg hzero, if_pos hzero]
    refine moves_addBase (Or.inr rfl) ?_
    unfold Moves
    rw [List.map_map, List.map_eq_flatMap]
    refine Effect.forM ?_
    intro i _
    exact moves_addBase (f := fun _ => pure ()) (Or.inl rfl) moves_nil

theorem moves_nested (hkind : ¬ (kind = .method ∨ kind = .typeDesc))
    (hsub : ∀ q, Moves m base (sub .typeDesc q) (pure ())) :
    Moves m base (declItems m base sub kind p (nested off)) (mapNestedType base (p + off)) := by
  unfold declItems mapNestedType
  rw [if_neg hkind]
  refine moves_addBaseIf.rest ?_
  split
  · exact moves_nil
  · exact hsub _

/-- The nested type of a nested type descriptor or of a method is not moved. -/
theorem moves_deep (hkind : kind = .method ∨ kind = .typeDesc)
    (hsub : ∀ q, Moves m base (sub .typeDesc q) (pure ())) :
    Moves m base (declItems m base sub kind p (nested off)) (pure ()) := by
  unfold declItems
  rw [if_pos hkind]
  refine Moves.rest (effect_reads (by simp [Item.access])) ?_
  split
  · exact moves_nil
  · exact hsub _

/-! ## Records -/

theorem moves_typeDesc : Moves m base (items m base depth .typeDesc p) (pure ()) := by
  induction depth generalizing p with
  | zero => exact moves_nil
  | succ depth ih =>
    simp only [items, decls, List.flatMap_cons, List.flatMap_nil, List.append_nil]
    exact moves_deep (Or.inr rfl) fun q => ih

theorem moves_classInterface : Moves m base (items m base depth .classInterface p) (pure ()) := by
  cases depth with
  | zero => exact moves_nil
  | succ depth => exact moves_nil

theorem moves_fileDir :
    Moves m base (items m base (depth + 1) .fileDir p) (mapFileDirEntry base p) := by
  simp only [items, decls, List.flatMap_cons, List.flatMap_nil, List.append_nil]
  exact moves_text

theorem moves_classDesc :
    Moves m base (items m base (depth + 1) .classDesc p) (mapClassDescriptor base p) := by
  simp only [items, decls, List.flatMap_cons, List.flatMap_nil, List.append_nil]
  refine moves_indexes.seq (moves_indexes.seq (moves_indexes.seq ?_))
  exact moves_table (by decide) fun q => moves_classInterface

/-- The entries of the four directories with descriptors. -/
theorem moves_dirEntry (hf : ∀ q, Moves m base (sub k q) (f q)) :
    Moves m base ([name DirEntry.mName, text DirEntry.mNameSpace, desc DirEntry.mDesc k].flatMap
      (declItems m base sub kind p)) (mapDirEntry base p f) := by
  simp only [List.flatMap_cons, List.flatMap_nil, List.append_nil]
  exact moves_name.seq (moves_text.seq (moves_desc hf))

theorem moves_classDir :
    Moves m base (items m base (depth + 2) .classDir p) (mapClassDirEntry base p) :=
  moves_dirEntry fun _ => moves_classDesc

theorem moves_interfaceConst :
    Moves m base (items m base (depth + 1) .interfaceConst p)
      (mapInterfaceConstDescriptor base p) := by
  simp only [items, decls, List.flatMap_cons, List.flatMap_nil, List.append_nil]
  exact moves_name.seq moves_textIf

theorem moves_param :
    Moves m base (items m base (depth + 1) .param p) (mapParamDescriptor base p) := by
  simp only [items, decls, List.flatMap_cons, List.flatMap_nil, List.append_nil]
  exact moves_name.seq (moves_nested (by decide) fun _ => moves_typeDesc)

theorem moves_method :
    Moves m base (items m base (depth + 2) .method p) (mapMethodDescriptor base p) := by
  rw [items]
  simp only [decls, List.flatMap_cons, List.flatMap_nil, List.append_nil]
  refine moves_name.seq (moves_name.seq (moves_text.seq ?_))
  -- the code goes from the annotation to the parameters, past the type
  refine (moves_deep (Or.inl rfl) fun _ => moves_typeDesc).skip ?_
  exact moves_table (by decide) fun _ => moves_param

theorem moves_interfaceDesc :
    Moves m base (items m base (depth + 3) .interfaceDesc p) (mapInterfaceDescriptor base p) := by
  rw [items]
  simp only [decls, List.flatMap_cons, List.flatMap_nil, List.append_nil]
  refine (moves_table (by decide) fun _ => moves_interfaceConst).seq ?_
  exact moves_table (by decide) fun _ => moves_method

theorem moves_interfaceDir :
    Moves m base (items m base (depth + 4) .interfaceDir p) (mapInterfaceDirEntry base p) :=
  moves_dirEntry fun _ => moves_interfaceDesc

theorem moves_arrayDir :
    Moves m base (items m base (depth + 1) .arrayDir p) (mapArrayDirEntry base p) := by
  simp only [items, decls, List.flatMap_cons, List.flatMap_nil, List.append_nil]
  exact moves_text.seq (moves_nested (by decide) fun _ => moves_typeDesc)

theorem moves_structElement :
    Moves m base (items m base (depth + 1) .structElement p) (mapStructElement base p) := by
  simp only [items, decls, List.flatMap_cons, List.flatMap_nil, List.append_nil]
  exact moves_name.seq (moves_nested (by decide) fun _ => moves_typeDesc)

theorem moves_structDesc :
    Moves m base (items m base (depth + 2) .structDesc p) (mapStructDescriptor base p) := by
  rw [items]
  simp only [decls, List.flatMap_cons, List.flatMap_nil, List.append_nil]
  exact moves_table (by decide) fun _ => moves_structElement

theorem moves_structDir :
    Moves m base (items m base (depth + 3) .structDir p) (mapStructDirEntry base p) :=
  moves_dirEntry fun _ => moves_structDesc

theorem moves_enumElement :
    Moves m base (items m base (depth + 1) .enumElement p) (mapEnumElement base p) := by
  simp only [items, decls, List.flatMap_cons, List.flatMap_nil, List.append_nil]
  exact moves_name

theorem moves_enumDesc :
    Moves m base (items m base (depth + 2) .enumDesc p) (mapEnumDescriptor base p) := by
  rw [items]
  simp only [decls, List.flatMap_cons, List.flatMap_nil, List.append_nil]
  exact moves_table (by decide) fun _ => moves_enumElement

theorem moves_enumDir :
    Moves m base (items m base (depth + 3) .enumDir p) (mapEnumDirEntry base p) :=
  moves_dirEntry fun _ => moves_enumDesc

theorem moves_constDir :
    Moves m base (items m base (depth + 1) .constDir p) (mapConstDirEntry base p) := by
  simp only [items, decls, List.flatMap_cons, List.flatMap_nil, List.append_nil]
  exact moves_name.seq (moves_text.seq moves_textIf)

theorem moves_aliasDir :
    Moves m base (items m base (depth + 1) .aliasDir p) (mapAliasDirEntry base p) := by
  simp only [items, decls, List.flatMap_cons, List.flatMap_nil, List.append_nil]
  exact moves_name.seq (moves_text.seq (moves_nested (by decide) fun _ => moves_typeDesc))

/-- `DoRelocCLS` does to every field of the module what its role says. -/
theorem moves_clsModule :
    Moves m base (items m base (depth + 5) .clsModule base) (doRelocCLS base) := by
  rw [items]
  simp only [decls, List.flatMap_cons, List.flatMap_nil, List.append_nil]
  refine moves_name.seq (moves_text.seq (moves_text.seq (moves_indexes.seq ?_)))
  refine (moves_dirs fun _ => moves_fileDir).seq ?_
  refine (moves_dirs fun _ => moves_classDir).seq ?_
  refine (moves_dirs fun _ => moves_interfaceDir).seq ?_
  refine (moves_dirs fun _ => moves_arrayDir).seq ?_
  refine (moves_dirs fun _ => moves_structDir).seq ?_
  refine (moves_dirs fun _ => moves_enumDir).seq ?_
  refine (moves_dirs fun _ => moves_constDir).seq ?_
  exact (moves_dirs fun _ => moves_aliasDir).seq moves_names

end SuperExe.Cls
