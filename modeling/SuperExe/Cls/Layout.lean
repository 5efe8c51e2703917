import SuperExe.Lib.Footprint

/-! # The records of a class module

The layout of `CLSModule` and of the records it refers to
(`inc/clsmodule/clsdef.h`), with `int` and pointers of 32 bits: at what offset a
pointer field stands, what it points to, and on what other field it depends.
A flattened module holds an offset from its own start in every pointer field.

`items` lists the pointer fields that can be reached from a record, and the
fields that say how far they go. A type descriptor may be nested in another one
to any depth, so the list is cut at a depth; what is said of a module is said
of the lists of all depths.
-/

namespace SuperExe.Cls

open SuperExe.Lib

/-! ## Offsets -/

namespace CLSModule
def mUunm : UInt32 := 36
def mName : UInt32 := 60
def mServiceName : UInt32 := 64
def mFileCount : UInt32 := 68
def mClassCount : UInt32 := 70
def mInterfaceCount : UInt32 := 72
def mDefinedInterfaceCount : UInt32 := 74
def mStructCount : UInt32 := 76
def mEnumCount : UInt32 := 78
def mAliasCount : UInt32 := 80
def mLibraryCount : UInt32 := 82
def mArrayCount : UInt32 := 84
def mConstCount : UInt32 := 86
def mFileDirs : UInt32 := 88
def mClassDirs : UInt32 := 92
def mInterfaceDirs : UInt32 := 96
def mDefinedInterfaceIndexes : UInt32 := 100
def mStructDirs : UInt32 := 104
def mEnumDirs : UInt32 := 108
def mAliasDirs : UInt32 := 112
def mLibraryNames : UInt32 := 116
def mArrayDirs : UInt32 := 120
def mConstDirs : UInt32 := 124
end CLSModule

namespace FileDirEntry
def mPath : UInt32 := 0
end FileDirEntry

namespace TypeDescriptor
def mNestedType : UInt32 := 16
end TypeDescriptor

/-! `ClassDirEntry`, `InterfaceDirEntry`, `StructDirEntry` and `EnumDirEntry`
have the same layout. -/

namespace DirEntry
def mName : UInt32 := 0
def mNameSpace : UInt32 := 4
def mDesc : UInt32 := 12
end DirEntry

namespace ClassDescriptor
def mInterfaceCount : UInt32 := 20
def mAggregateCount : UInt32 := 22
def mClassCount : UInt32 := 24
def mAspectCount : UInt32 := 26
def mInterfaces : UInt32 := 32
def mAggrIndexes : UInt32 := 36
def mAspectIndexes : UInt32 := 40
def mClassIndexes : UInt32 := 44
end ClassDescriptor

namespace InterfaceDescriptor
def mConstCount : UInt32 := 16
def mMethodCount : UInt32 := 18
def mConsts : UInt32 := 28
def mMethods : UInt32 := 32
end InterfaceDescriptor

namespace InterfaceConstDescriptor
def mName : UInt32 := 0
def mType : UInt32 := 4
def mStrValue : UInt32 := 8
end InterfaceConstDescriptor

namespace MethodDescriptor
def mName : UInt32 := 0
def mSignature : UInt32 := 4
def mAnnotation : UInt32 := 8
def mType : UInt32 := 12
def mParamCount : UInt32 := 32
def mParams : UInt32 := 36
end MethodDescriptor

namespace ParamDescriptor
def mName : UInt32 := 0
def mType : UInt32 := 4
end ParamDescriptor

namespace StructDescriptor
def mElementCount : UInt32 := 0
def mElements : UInt32 := 4
end StructDescriptor

namespace StructElement
def mName : UInt32 := 0
def mType : UInt32 := 4
end StructElement

namespace EnumDescriptor
def mElementCount : UInt32 := 0
def mElements : UInt32 := 4
end EnumDescriptor

namespace EnumElement
def mName : UInt32 := 0
end EnumElement

namespace AliasDirEntry
def mName : UInt32 := 0
def mNameSpace : UInt32 := 4
def mType : UInt32 := 8
end AliasDirEntry

namespace ArrayDirEntry
def mNameSpace : UInt32 := 0
def mType : UInt32 := 8
end ArrayDirEntry

namespace ConstDirEntry
def mName : UInt32 := 0
def mNameSpace : UInt32 := 4
def mType : UInt32 := 8
def mStrValue : UInt32 := 12
end ConstDirEntry

/-- `TYPE_STRING` -/
def typeString : UInt8 := 8

/-! ## Pointer fields -/

/-- The kinds of records. -/
inductive Kind where
  | clsModule
  | fileDir
  | classDir
  | interfaceDir
  | arrayDir
  | structDir
  | enumDir
  | constDir
  | aliasDir
  | classDesc
  | classInterface
  | interfaceDesc
  | interfaceConst
  | method
  | param
  | structDesc
  | structElement
  | enumDesc
  | enumElement
  | typeDesc
deriving DecidableEq, Repr

/-- A pointer field of a record, by its offset. -/
inductive Decl where
  /-- a `char*` that every record of the kind has -/
  | name (off : UInt32)
  /-- a `char*` that may be `NULL` -/
  | text (off : UInt32)
  /-- a `char*` that may be `NULL`, if the byte at `tag` is `TYPE_STRING` -/
  | textIf (tag off : UInt32)
  /-- an array of so many numbers -/
  | indexes (count off : UInt32)
  /-- a descriptor -/
  | desc (off : UInt32) (kind : Kind)
  /-- a table of so many pointers to records -/
  | table (count off : UInt32) (kind : Kind)
  /-- a table of so many `char*` -/
  | names (count off : UInt32)
  /-- `mNestedType` of the type descriptor at the offset -/
  | nested (type : UInt32)

open Decl

/-- The pointer fields of a record of the kind. -/
def decls : Kind → List Decl
  | .clsModule =>
    [name CLSModule.mName, text CLSModule.mUunm, text CLSModule.mServiceName,
      indexes CLSModule.mDefinedInterfaceCount CLSModule.mDefinedInterfaceIndexes,
      table CLSModule.mFileCount CLSModule.mFileDirs .fileDir,
      table CLSModule.mClassCount CLSModule.mClassDirs .classDir,
      table CLSModule.mInterfaceCount CLSModule.mInterfaceDirs .interfaceDir,
      table CLSModule.mArrayCount CLSModule.mArrayDirs .arrayDir,
      table CLSModule.mStructCount CLSModule.mStructDirs .structDir,
      table CLSModule.mEnumCount CLSModule.mEnumDirs .enumDir,
      table CLSModule.mConstCount CLSModule.mConstDirs .constDir,
      table CLSModule.mAliasCount CLSModule.mAliasDirs .aliasDir,
      names CLSModule.mLibraryCount CLSModule.mLibraryNames]
  | .fileDir => [text FileDirEntry.mPath]
  | .classDir => [name DirEntry.mName, text DirEntry.mNameSpace, desc DirEntry.mDesc .classDesc]
  | .interfaceDir =>
    [name DirEntry.mName, text DirEntry.mNameSpace, desc DirEntry.mDesc .interfaceDesc]
  | .arrayDir => [text ArrayDirEntry.mNameSpace, nested ArrayDirEntry.mType]
  | .structDir => [name DirEntry.mName, text DirEntry.mNameSpace, desc DirEntry.mDesc .structDesc]
  | .enumDir => [name DirEntry.mName, text DirEntry.mNameSpace, desc DirEntry.mDesc .enumDesc]
  | .constDir =>
    [name ConstDirEntry.mName, text ConstDirEntry.mNameSpace,
      textIf ConstDirEntry.mType ConstDirEntry.mStrValue]
  | .aliasDir => [name AliasDirEntry.mName, text AliasDirEntry.mNameSpace, nested AliasDirEntry.mType]
  | .classDesc =>
    [indexes ClassDescriptor.mAggregateCount ClassDescriptor.mAggrIndexes,
      indexes ClassDescriptor.mAspectCount ClassDescriptor.mAspectIndexes,
      indexes ClassDescriptor.mClassCount ClassDescriptor.mClassIndexes,
      table ClassDescriptor.mInterfaceCount ClassDescriptor.mInterfaces .classInterface]
  | .classInterface => []
  | .interfaceDesc =>
    [table InterfaceDescriptor.mConstCount InterfaceDescriptor.mConsts .interfaceConst,
      table InterfaceDescriptor.mMethodCount InterfaceDescriptor.mMethods .method]
  | .interfaceConst =>
    [name InterfaceConstDescriptor.mName,
      textIf InterfaceConstDescriptor.mType InterfaceConstDescriptor.mStrValue]
  | .method =>
    [name MethodDescriptor.mName, name MethodDescriptor.mSignature,
      text MethodDescriptor.mAnnotation, nested MethodDescriptor.mType,
      table MethodDescriptor.mParamCount MethodDescriptor.mParams .param]
  | .param => [name ParamDescriptor.mName, nested ParamDescriptor.mType]
  | .structDesc => [table StructDescriptor.mElementCount StructDescriptor.mElements .structElement]
  | .structElement => [name StructElement.mName, nested StructElement.mType]
  | .enumDesc => [table EnumDescriptor.mElementCount EnumDescriptor.mElements .enumElement]
  | .enumElement => [name EnumElement.mName]
  | .typeDesc => [nested 0]

/-! ## What is reached -/

/-- What a field of a module is. -/
inductive Role where
  /-- a count or a tag of so many bytes -/
  | scalar (size : UInt32)
  /-- a `char*` that every record of its kind has -/
  | name
  /-- a pointer to a record, a table or an array that is there -/
  | link
  /-- a pointer that may be `NULL` -/
  | optional
  /-- `mNestedType` of a nested type descriptor, or of the type of a method -/
  | deep
  /-- a table of the module that has no entries -/
  | empty
deriving DecidableEq, Repr

/-- A field at an address. -/
structure Item where
  addr : UInt32
  role : Role
deriving DecidableEq, Repr

def Item.size (i : Item) : UInt32 :=
  match i.role with
  | .scalar size => size
  | _ => 4

/-- A pointer field that refers to something, or may do so. -/
def Item.IsPointer (i : Item) : Prop :=
  match i.role with
  | .scalar _ => False
  | .empty => False
  | _ => True

section Items

variable (m : Mem) (base : UInt32)

/-- Where the word at `a`, an offset, points to. -/
def target (a : UInt32) : UInt32 := m.read32 a + base

/-- The address of entry `i` of the table the word at `a` points to. -/
def entryAddr (a : UInt32) (i : Nat) : UInt32 := target m base a + 4 * UInt32.ofNat i

/-- What is reached through one field of the record of kind `kind` at `p`. -/
def declItems (sub : Kind → UInt32 → List Item) (kind : Kind) (p : UInt32) : Decl → List Item
  | name off => [⟨p + off, .name⟩]
  | text off => [⟨p + off, .optional⟩]
  | textIf tag off =>
    ⟨p + tag, .scalar 1⟩ :: if m (p + tag) = typeString then [⟨p + off, .optional⟩] else []
  | indexes count off =>
    ⟨p + count, .scalar 2⟩ :: if m.read16 (p + count) = 0 then [] else [⟨p + off, .link⟩]
  | desc off k => ⟨p + off, .link⟩ :: sub k (target m base (p + off))
  | table count off k =>
    ⟨p + count, .scalar 2⟩ ::
      if m.read16 (p + count) = 0 then (if kind = .clsModule then [⟨p + off, .empty⟩] else [])
      else ⟨p + off, .link⟩ :: (List.range (m.read16 (p + count))).flatMap fun i =>
        ⟨entryAddr m base (p + off) i, .link⟩ ::
          sub k (target m base (entryAddr m base (p + off) i))
  | names count off =>
    ⟨p + count, .scalar 2⟩ ::
      if m.read16 (p + count) = 0 then (if kind = .clsModule then [⟨p + off, .empty⟩] else [])
      else ⟨p + off, .link⟩ :: (List.range (m.read16 (p + count))).map fun i =>
        ⟨entryAddr m base (p + off) i, .name⟩
  | nested off =>
    ⟨p + off + TypeDescriptor.mNestedType,
        if kind = .method ∨ kind = .typeDesc then .deep else .optional⟩ ::
      if m.read32 (p + off + TypeDescriptor.mNestedType) = 0 then []
      else sub .typeDesc (target m base (p + off + TypeDescriptor.mNestedType))

/-- The fields reached from the record of kind `kind` at `p`, through so many
records. -/
def items : Nat → Kind → UInt32 → List Item
  | 0, _, _ => []
  | depth + 1, kind, p => (decls kind).flatMap (declItems m base (items depth) kind p)

end Items

end SuperExe.Cls
