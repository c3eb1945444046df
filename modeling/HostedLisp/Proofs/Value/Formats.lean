import HostedLisp.Proofs.Value.Renaming
import HostedLisp.Serialize
import HostedLisp.Template.Renderer

namespace HostedLisp

variable (ρ : Renaming)

section Formats

variable [HostClasses]

namespace Value

mutual

theorem checkTexts_rename [HostClasses.Anonymous] :
    ∀ v : Value, (v.rename ρ).checkTexts = v.checkTexts
  | list _ items => by simp only [rename, checkTexts, checkTextsAll_rename items]
  | tuple items => by simp only [rename, checkTexts, checkTextsAll_rename items]
  | map entries => by simp only [rename, checkTexts, checkTextsEntries_rename entries]
  | object _ _ _ => by simp only [rename, checkTexts]
  | null | bool _ | int _ | double _ | float _ | decimal _ | str _ | code _ | date _ | bytes _
  | handle _ | callable _ | token _ | nodeKind _ => rfl

theorem checkTextsAll_rename [HostClasses.Anonymous] : ∀ xs : List Value,
    checkTextsAll (renameAll ρ xs) = checkTextsAll xs
  | [] => rfl
  | x :: xs => by
      simp only [renameAll, checkTextsAll, checkTexts_rename x, checkTextsAll_rename xs]

theorem checkTextsEntries_rename [HostClasses.Anonymous] : ∀ entries : List (Value × Value),
    checkTextsEntries (renameEntries ρ entries) = checkTextsEntries entries
  | [] => rfl
  | (k, v) :: rest => by
      simp only [renameEntries, checkTextsEntries, display?_rename, checkTexts_rename v,
        checkTextsEntries_rename rest]

end

mutual

theorem plain_rename [HostClasses.Anonymous] : ∀ v : Value, (v.rename ρ).plain = v.plain.rename ρ
  | list _ items => by simp only [rename, plain, plainAll_rename items, rename_listOf]
  | tuple items => by simp only [rename, plain, plainAll_rename items, rename_listOf]
  | map entries => by simp only [rename, plain, plainEntries_rename entries, mapOf_rename]
  | object _ _ _ => by simp only [rename, plain]
  | null | bool _ | int _ | double _ | float _ | decimal _ | str _ | code _ | date _ | bytes _
  | handle _ | callable _ | token _ | nodeKind _ => rfl

theorem plainAll_rename [HostClasses.Anonymous] : ∀ xs : List Value,
    plainAll (renameAll ρ xs) = renameAll ρ (plainAll xs)
  | [] => rfl
  | x :: xs => by simp only [renameAll, plainAll, plain_rename x, plainAll_rename xs]

theorem plainEntries_rename [HostClasses.Anonymous] : ∀ entries : List (Value × Value),
    plainEntries (renameEntries ρ entries) = renameEntries ρ (plainEntries entries)
  | [] => rfl
  | (k, v) :: rest => by
      simp only [renameEntries, plainEntries, display_rename, plain_rename v,
        plainEntries_rename rest, rename]

end

end Value

namespace Json

open Value

variable (layout : Layout)

mutual

theorem print_rename [HostClasses.Anonymous] (level : Nat) : ∀ v : Value,
    print layout level (v.rename ρ) = print layout level v
  | .list _ items => by simp only [rename, print, printAll_rename (level + 1) items]
  | .tuple items => by simp only [rename, print, printAll_rename (level + 1) items]
  | .map entries => by simp only [rename, print, printEntries_rename (level + 1) entries]
  | .object _ _ _ => by simp only [rename, print, unwritable, type]
  | .null | .bool _ | .int _ | .double _ | .float _ | .decimal _ | .str _ | .code _ | .date _
  | .bytes _ | .handle _ | .callable _ | .token _ | .nodeKind _ => rfl

theorem printAll_rename [HostClasses.Anonymous] (level : Nat) : ∀ xs : List Value,
    printAll layout level (renameAll ρ xs) = printAll layout level xs
  | [] => rfl
  | x :: xs => by
      simp only [renameAll, printAll, print_rename level x, printAll_rename level xs]

theorem printEntries_rename [HostClasses.Anonymous] (level : Nat) :
    ∀ entries : List (Value × Value),
      printEntries layout level (renameEntries ρ entries) = printEntries layout level entries
  | [] => rfl
  | (k, v) :: rest => by
      simp only [renameEntries, printEntries, display_rename, print_rename level v,
        printEntries_rename level rest]

end

end Json

namespace Yaml

open Value

theorem unwritable_rename [HostClasses.Anonymous] (v : Value) :
    unwritable (v.rename ρ) = unwritable v := by
  rw [unwritable, unwritable, inspect?_rename]

mutual

theorem putValue_rename [HostClasses.Anonymous] (p : Pen) (indent : Option Nat) (place : Place) :
    ∀ v : Value, putValue p indent place (v.rename ρ) = putValue p indent place v
  | .list _ items => by simp only [rename, putValue, isEmpty_renameAll, putItems_rename _ items]
  | .tuple items => by simp only [rename, putValue, isEmpty_renameAll, putItems_rename _ items]
  | .map entries => by
      simp only [rename, putValue, isEmpty_renameEntries, putEntries_rename _ entries]
  | .object id className attributes =>
      congrArg Except.error (unwritable_rename ρ (.object id className attributes))
  | .null | .bool _ | .int _ | .double _ | .float _ | .decimal _ | .str _ | .code _ | .date _
  | .bytes _ | .handle _ | .callable _ | .token _ | .nodeKind _ => rfl

theorem putItems_rename [HostClasses.Anonymous] (indent : Nat) : ∀ (xs : List Value) (p : Pen),
    putItems indent (renameAll ρ xs) p = putItems indent xs p
  | [], _ => rfl
  | x :: xs, p => by
      simp only [renameAll, putItems, putValue_rename _ _ _ x, putItems_rename indent xs]

theorem putEntries_rename [HostClasses.Anonymous] (indent : Nat) :
    ∀ (entries : List (Value × Value)) (p : Pen),
      putEntries indent (renameEntries ρ entries) p = putEntries indent entries p
  | [], _ => rfl
  | (k, v) :: rest, p => by
      simp only [renameEntries, putEntries, display_rename, putValue_rename _ _ _ v,
        putEntries_rename indent rest]

end

omit [HostClasses] in
theorem isOpenEnded_rename (v : Value) : isOpenEnded (v.rename ρ) = isOpenEnded v := by
  cases v <;> rfl

end Yaml

theorem write_rename [HostClasses.Anonymous] (format : DataFormat) (pretty : Bool) (v : Value) :
    write format pretty (v.rename ρ) = write format pretty v := by
  unfold write
  rw [Value.checkTexts_rename, Value.plain_rename]
  cases format with
  | json => simp only [Json.text, Json.print_rename]
  | yaml => simp only [Yaml.text, Yaml.putValue_rename, Yaml.isOpenEnded_rename]

theorem serialize_rename [HostClasses.Anonymous] (format : Option String) (pretty : Bool)
    (v : Value) :
    serialize format pretty (v.rename ρ) = serialize format pretty v := by
  simp only [serialize, write_rename]

end Formats

namespace Template

open Value

mutual

theorem data_rename : ∀ v : Value, data (v.rename ρ) = (data v).rename ρ
  | .list _ items => by simp only [rename, data, dataAll_rename items, rename_listOf]
  | .tuple items => by simp only [rename, data, dataAll_rename items, rename_listOf]
  | .map entries => by simp only [rename, data, dataEntries_rename entries]
  | .object _ _ _ => by simp only [rename, data]
  | .null | .bool _ | .int _ | .double _ | .float _ | .decimal _ | .str _ | .code _ | .date _
  | .bytes _ | .handle _ | .callable _ | .token _ | .nodeKind _ => rfl

theorem dataAll_rename : ∀ xs : List Value,
    dataAll (renameAll ρ xs) = renameAll ρ (dataAll xs)
  | [] => rfl
  | x :: xs => by simp only [renameAll, dataAll, data_rename x, dataAll_rename xs]

theorem dataEntries_rename : ∀ entries : List (Value × Value),
    dataEntries (renameEntries ρ entries) = renameEntries ρ (dataEntries entries)
  | [] => rfl
  | (k, v) :: rest => by
      simp only [renameEntries, dataEntries, data_rename v, dataEntries_rename rest]

end

theorem isTrue_rename (v : Value) : isTrue (v.rename ρ) = isTrue v := by
  cases v with
  | list id items => exact congrArg not (isEmpty_renameAll ρ items)
  | tuple items => exact congrArg not (isEmpty_renameAll ρ items)
  | map entries => exact congrArg not (isEmpty_renameEntries ρ entries)
  | _ => rfl

theorem hasAttributes_rename (v : Value) : hasAttributes (v.rename ρ) = hasAttributes v := by
  cases v <;> rfl

theorem renameAll_code (xs : List Node) : renameAll ρ (xs.map code) = xs.map code := by
  rw [renameAll_eq_map, List.map_map]
  rfl

theorem sectionItems_rename (v : Value) :
    sectionItems (v.rename ρ) = renameAll ρ (sectionItems v) := by
  unfold sectionItems
  rw [isTrue_rename]
  split
  · rfl
  · cases v with
    | code x => cases x <;> first | rfl | exact (renameAll_code ρ _).symm
    | _ => rfl

end Template

end HostedLisp
