import Znu.Modl.Loader

/-! # Reading the image

Most functions of the loader only read, and only through pointers into the image. So they leave memory
as it is, and what they return depends on the bytes of the image alone.
-/

namespace Znu.Modl.Elf

open Lib Program

variable {a file i n shdr : Nat} {m : Bytes} {placed : Placed} {via : Via}

lemma field_value : (field via a n).value m = Bytes.word (fun x => m (x % 2 ^ 64)) a n := by
  induction n generalizing a with
  | zero => rfl
  | succ n ih =>
    simp only [field, value_bind, value_pure, Bytes.word]
    rw [← ih]
    rfl

lemma reads_get : (get via a).Reads via := ⟨rfl, fun _ => trivial⟩

lemma reads_field : (field via a n).Reads via := by
  induction n generalizing a with
  | zero => exact reads_pure 0
  | succ n ih => exact reads_get.bind fun _ => ih.bind fun _ => reads_pure _

lemma reads_eShnum : (eShnum file).Reads .buffer := reads_field

lemma reads_strcmp {text : Text} : (strcmp a text).Reads .buffer := by
  induction text generalizing a with
  | nil => exact reads_get.bind fun _ => reads_pure _
  | cons c text ih => exact reads_get.bind fun _ => .ite ih (reads_pure _)

lemma reads_countPrinted {rounds : Nat} : (countPrinted a rounds).Reads .buffer := by
  induction rounds generalizing a with
  | zero => exact reads_pure ()
  | succ rounds ih => exact reads_get.bind fun _ => .ite (reads_pure _) ih

lemma reads_printed : (printed a).Reads .buffer := .ite (reads_pure _) reads_countPrinted

lemma reads_symGetAddr {name : Nat} {symbols : List (Text × Nat)} :
    (symGetAddr name symbols).Reads .buffer := by
  induction symbols with
  | nil => exact reads_pure 0
  | cons symbol symbols ih => exact reads_strcmp.bind fun _ => .ite (reads_pure _) ih

lemma reads_symbolValue {env : Env} {base : Nat} {strtab sym : Nat} :
    (symbolValue env base placed strtab sym).Reads .buffer := by
  have resolve : ∀ name, (modResolveSymbol env name).Reads .buffer := fun name =>
    reads_symGetAddr.bind fun _ => .ite (reads_pure _) reads_symGetAddr
  have refuse : ∀ name, (printed name >>= fun _ => pure none : Loading (Option Nat)).Reads .buffer :=
    fun name => reads_printed.bind fun _ => reads_pure _
  refine reads_field.bind fun name => reads_field.bind fun shndx => .ite ?_ (.ite ?_ (.ite ?_ ?_))
  · exact (resolve _).bind fun _ => .ite (refuse _) (reads_pure _)
  · exact reads_field.bind fun _ => reads_pure _
  · exact refuse _
  · exact reads_field.bind fun _ => .ite (reads_field.bind fun _ => reads_pure _) (reads_pure _)

lemma reads_shAlloc : (shAlloc shdr i).Reads .buffer :=
  reads_field.bind fun _ => reads_pure _

lemma reads_relocationTables : (relocationTables file placed shdr i).Reads .buffer := by
  refine reads_field.bind fun _ => .ite (reads_pure _) ?_
  refine reads_field.bind fun _ => reads_field.bind fun _ => .ite (reads_pure _) ?_
  refine reads_shAlloc.bind fun _ => .ite ?_ (reads_pure _)
  refine reads_field.bind fun _ => reads_field.bind fun _ => .ite (reads_pure _) ?_
  exact reads_field.bind fun _ => reads_field.bind fun _ => reads_field.bind fun _ =>
    reads_field.bind fun _ => reads_field.bind fun _ => reads_pure _

/-! ## Loops over the sections -/

/-- What the body of a loop over the sections keeps holds at its end. -/
lemma sectionLoop_keeps {σ : Type} {body : Nat → σ → Loading (ForInStep σ)}
    {I : σ → Bytes → Prop} (keeps : ∀ i s m, I s m → I ((body i s).value m).value ((body i s).after m))
    (rounds i : Nat) {s : σ} (start : I s m) :
    I ((sectionLoop file body rounds i s).value m) ((sectionLoop file body rounds i s).after m) := by
  induction rounds generalizing i s m with
  | zero => exact start
  | succ rounds ih =>
    simp only [sectionLoop, value_bind, after_bind, reads_eShnum.after]
    split
    · have next := keeps i s m start
      simp only [value_bind, after_bind]
      cases step : (body i s).value m with rw [step] at next
      | yield s' =>
        exact ih (i + 1) next
      | done s' =>
        exact next
    · exact start

end Znu.Modl.Elf
