import SuperExe.Cls.Layout

/-! # Relocation of a class module

`clsmodule/reloc.cpp`: the module at `sBase` holds offsets from its own start,
and `DoRelocCLS` turns them into addresses. The loops over tables are all of one
shape; the tables of the module itself become `NULL` when they have no entries,
the others are left as they are.
-/

namespace SuperExe.Cls

open SuperExe.Lib

/-- `p += sBase` for the pointer at `a`; the new pointer. -/
def addBase (sBase a : UInt32) : StateM Mem UInt32 := do
  let p ← load32 a
  store32 a (p + sBase)
  return p + sBase

/-- `if (p) p += sBase` -/
def addBaseIf (sBase a : UInt32) : StateM Mem Unit := do
  let p ← load32 a
  if p ≠ 0 then store32 a (p + sBase)

/-- The array at `array`, of the length at `count`. -/
def mapIndexes (sBase count array : UInt32) : StateM Mem Unit := do
  let n ← load16 count
  if n ≠ 0 then discard (addBase sBase array)

/-- The loop over the entries of a table. -/
def mapEntries (sBase table : UInt32) (count : Nat) (f : UInt32 → StateM Mem Unit) :
    StateM Mem Unit :=
  (List.range count).forM fun n => do
    let e ← addBase sBase (table + 4 * UInt32.ofNat n)
    f e

/-- A table of a record, with what is done for each of its entries. -/
def mapTable (sBase count table : UInt32) (f : UInt32 → StateM Mem Unit) : StateM Mem Unit := do
  let n ← load16 count
  if n ≠ 0 then do
    let t ← addBase sBase table
    mapEntries sBase t n f

/-- A table of the module. -/
def mapDirs (sBase count table : UInt32) (f : UInt32 → StateM Mem Unit) : StateM Mem Unit := do
  let n ← load16 count
  if n ≠ 0 then do
    let t ← addBase sBase table
    mapEntries sBase t n f
  else store32 table 0

/-- `if (p->mType == TYPE_STRING && p->mV.mStrValue != NULL) p->mV.mStrValue += sBase` -/
def mapStrValue (sBase type strValue : UInt32) : StateM Mem Unit := do
  let t ← load8 type
  if t = typeString then addBaseIf sBase strValue

/-- The pointer in an embedded type descriptor. -/
def mapNestedType (sBase type : UInt32) : StateM Mem Unit :=
  addBaseIf sBase (type + TypeDescriptor.mNestedType)

section

variable (sBase p : UInt32)

/-- `MapFileDirEntry` -/
def mapFileDirEntry : StateM Mem Unit := addBaseIf sBase (p + FileDirEntry.mPath)

/-- `MapClassDescriptor` -/
def mapClassDescriptor : StateM Mem Unit := do
  mapIndexes sBase (p + ClassDescriptor.mAggregateCount) (p + ClassDescriptor.mAggrIndexes)
  mapIndexes sBase (p + ClassDescriptor.mAspectCount) (p + ClassDescriptor.mAspectIndexes)
  mapIndexes sBase (p + ClassDescriptor.mClassCount) (p + ClassDescriptor.mClassIndexes)
  mapTable sBase (p + ClassDescriptor.mInterfaceCount) (p + ClassDescriptor.mInterfaces)
    fun _ => pure ()

/-- The entry of a directory with its name and its descriptor. -/
def mapDirEntry (f : UInt32 → StateM Mem Unit) : StateM Mem Unit := do
  discard (addBase sBase (p + DirEntry.mName))
  addBaseIf sBase (p + DirEntry.mNameSpace)
  let d ← addBase sBase (p + DirEntry.mDesc)
  f d

/-- `MapClassDirEntry` -/
def mapClassDirEntry : StateM Mem Unit := mapDirEntry sBase p (mapClassDescriptor sBase)

/-- `MapInterfaceConstDescriptor` -/
def mapInterfaceConstDescriptor : StateM Mem Unit := do
  discard (addBase sBase (p + InterfaceConstDescriptor.mName))
  mapStrValue sBase (p + InterfaceConstDescriptor.mType) (p + InterfaceConstDescriptor.mStrValue)

/-- The body of the loop over the parameters. -/
def mapParamDescriptor : StateM Mem Unit := do
  discard (addBase sBase (p + ParamDescriptor.mName))
  mapNestedType sBase (p + ParamDescriptor.mType)

/-- `MapMethodDescriptor` -/
def mapMethodDescriptor : StateM Mem Unit := do
  discard (addBase sBase (p + MethodDescriptor.mName))
  discard (addBase sBase (p + MethodDescriptor.mSignature))
  addBaseIf sBase (p + MethodDescriptor.mAnnotation)
  mapTable sBase (p + MethodDescriptor.mParamCount) (p + MethodDescriptor.mParams)
    (mapParamDescriptor sBase)

/-- `MapInterfaceDescriptor` -/
def mapInterfaceDescriptor : StateM Mem Unit := do
  mapTable sBase (p + InterfaceDescriptor.mConstCount) (p + InterfaceDescriptor.mConsts)
    (mapInterfaceConstDescriptor sBase)
  mapTable sBase (p + InterfaceDescriptor.mMethodCount) (p + InterfaceDescriptor.mMethods)
    (mapMethodDescriptor sBase)

/-- `MapInterfaceDirEntry` -/
def mapInterfaceDirEntry : StateM Mem Unit := mapDirEntry sBase p (mapInterfaceDescriptor sBase)

/-- `MapArrayDirEntry` -/
def mapArrayDirEntry : StateM Mem Unit := do
  addBaseIf sBase (p + ArrayDirEntry.mNameSpace)
  mapNestedType sBase (p + ArrayDirEntry.mType)

/-- The body of the loop over the elements of a struct. -/
def mapStructElement : StateM Mem Unit := do
  discard (addBase sBase (p + StructElement.mName))
  mapNestedType sBase (p + StructElement.mType)

/-- `MapStructDescriptor` -/
def mapStructDescriptor : StateM Mem Unit :=
  mapTable sBase (p + StructDescriptor.mElementCount) (p + StructDescriptor.mElements)
    (mapStructElement sBase)

/-- `MapStructDirEntry` -/
def mapStructDirEntry : StateM Mem Unit := mapDirEntry sBase p (mapStructDescriptor sBase)

/-- The body of the loop over the elements of an enumeration. -/
def mapEnumElement : StateM Mem Unit := discard (addBase sBase (p + EnumElement.mName))

/-- `MapEnumDescriptor` -/
def mapEnumDescriptor : StateM Mem Unit :=
  mapTable sBase (p + EnumDescriptor.mElementCount) (p + EnumDescriptor.mElements)
    (mapEnumElement sBase)

/-- `MapEnumDirEntry` -/
def mapEnumDirEntry : StateM Mem Unit := mapDirEntry sBase p (mapEnumDescriptor sBase)

/-- `MapConstDirEntry` -/
def mapConstDirEntry : StateM Mem Unit := do
  discard (addBase sBase (p + ConstDirEntry.mName))
  addBaseIf sBase (p + ConstDirEntry.mNameSpace)
  mapStrValue sBase (p + ConstDirEntry.mType) (p + ConstDirEntry.mStrValue)

/-- `MapAliasDirEntry` -/
def mapAliasDirEntry : StateM Mem Unit := do
  discard (addBase sBase (p + AliasDirEntry.mName))
  addBaseIf sBase (p + AliasDirEntry.mNameSpace)
  mapNestedType sBase (p + AliasDirEntry.mType)

end

/-- `DoRelocCLS`; the base is the address of the module. -/
def doRelocCLS (p : UInt32) : StateM Mem Unit := do
  discard (addBase p (p + CLSModule.mName))
  addBaseIf p (p + CLSModule.mUunm)
  addBaseIf p (p + CLSModule.mServiceName)
  mapIndexes p (p + CLSModule.mDefinedInterfaceCount) (p + CLSModule.mDefinedInterfaceIndexes)
  mapDirs p (p + CLSModule.mFileCount) (p + CLSModule.mFileDirs) (mapFileDirEntry p)
  mapDirs p (p + CLSModule.mClassCount) (p + CLSModule.mClassDirs) (mapClassDirEntry p)
  mapDirs p (p + CLSModule.mInterfaceCount) (p + CLSModule.mInterfaceDirs) (mapInterfaceDirEntry p)
  mapDirs p (p + CLSModule.mArrayCount) (p + CLSModule.mArrayDirs) (mapArrayDirEntry p)
  mapDirs p (p + CLSModule.mStructCount) (p + CLSModule.mStructDirs) (mapStructDirEntry p)
  mapDirs p (p + CLSModule.mEnumCount) (p + CLSModule.mEnumDirs) (mapEnumDirEntry p)
  mapDirs p (p + CLSModule.mConstCount) (p + CLSModule.mConstDirs) (mapConstDirEntry p)
  mapDirs p (p + CLSModule.mAliasCount) (p + CLSModule.mAliasDirs) (mapAliasDirEntry p)
  mapDirs p (p + CLSModule.mLibraryCount) (p + CLSModule.mLibraryNames) fun _ => pure ()

end SuperExe.Cls
