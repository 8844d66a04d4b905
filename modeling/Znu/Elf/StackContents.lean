
import Znu.Elf.Contents
import Znu.Elf.StackLayout

/-! # The vectors on the initial stack

`elf_build_stack` pushes the strings first and then the words of the vectors. Because
`hhdm_copy_to_user` adds the page offset twice, a string may end up in the frame after
that of its page; the words are where they belong as long as no string has hit a page
table.
-/

namespace Znu.Elf

open Lib Mm List Option CString Bytes Space

variable {execfn execfns sp : Nat} {s' : Phys}

variable {own : Nat → Prop} {root : Nat} {s : Phys}

section

variable {A : Space}

lemma pushStrings_append (pml4 : Nat) (strs strs' : List CString) (s : Phys) (sp : Nat) :
    pushStrings pml4 (strs ++ strs') s sp =
      let r := pushStrings pml4 strs' s sp
      let q := pushStrings pml4 strs r.1 r.2.1
      (q.1, q.2.1, q.2.2 ++ r.2.2) := by
  induction strs with
  | nil => rfl
  | cons str strs ih =>
    rw [cons_append, pushStrings, ih]
    rfl

lemma pushStrings_length (pml4 : Nat) (strs : List CString) (s : Phys) (sp : Nat) :
    (pushStrings pml4 strs s sp).2.2.length = strs.length := by
  induction strs with
  | nil => rfl
  | cons str strs ih => exact congrArg Nat.succ ih

lemma stringsSize_append (strs strs' : List CString) :
    stringsSize (strs ++ strs') = stringsSize strs + stringsSize strs' := by
  simp [stringsSize]

lemma pushExecfn_eq (pml4 : Nat) (execfn : Option CString) (s : Phys) (sp : Nat) :
    (pushExecfn pml4 execfn s sp).1 = (pushStrings pml4 execfn.toList s sp).1 ∧
      (pushExecfn pml4 execfn s sp).2.1 = (pushStrings pml4 execfn.toList s sp).2.1 := by
  cases execfn with
  | none | some _ => exact ⟨rfl, rfl⟩

/-- The number of words `elf_build_stack` pushes after the random bytes. -/
def vectorWords (argc envc execfns : Nat) : Nat := 2 * (17 + execfns) + envc + argc + 3

lemma auxv_length (h : Ehdr) (loadBase platform random : Nat)
    (given : execfns = if execfn ≠ 0 then 1 else 0) :
    (auxv h loadBase platform execfn random).length = 17 + execfns := by
  subst given
  unfold auxv
  split <;> rfl

lemma auxvWords_length (entries : List (Nat × Nat)) : (auxvWords entries).length = 2 * entries.length := by
  induction entries with
  | nil => rfl
  | cons e entries ih =>
    rw [auxvWords, flatMap_cons, length_append, ← auxvWords, ih, length_cons]
    simp only [length_cons, length_nil]
    omega

/-- The words from the stack pointer on, in the order of their addresses. -/
def vectors (h : Ehdr) (loadBase platform execfn : Nat) (uargv uenvp : List Nat) : List Nat :=
  (uargv.length :: (uargv ++ 0 :: uenvp)) ++
    0 :: (auxvWords (auxv h loadBase platform execfn (platform - 16))).reverse

/-- The pointer arrays and the auxiliary vector end up at the stack pointer, after the argument count. -/
lemma pushVectors_spec (refines : Refines own root s A) (seed : Nat) (h : Ehdr) (loadBase : Nat)
    (uargv uenvp : List Nat) {platform : Nat}
    (given : execfns = if execfn ≠ 0 then 1 else 0) (aligned : platform % 8 = 0)
    (place : sp + 8 * vectorWords uargv.length uenvp.length execfns =
      alignStack uargv.length uenvp.length (platform - 16))
    (room : 24 ≤ platform) (user : platform ≤ userEnd)
    (mapped : ∀ w, sp ≤ w → w < platform → A w ≠ none) :
    (pushVectors (root * 4096) seed h loadBase platform execfn uargv uenvp s).2 = sp ∧
    ∃ B, Wrote own root s (pushVectors (root * 4096) seed h loadBase platform execfn uargv uenvp s).1 B
        (fun w => sp ≤ w ∧ w < platform) ∧
      (∀ w, w < sp ∨ platform ≤ w → B w = A w) ∧
      ∀ m v, (vectors h loadBase platform execfn uargv uenvp)[m]? = some v → HoldsWord B (sp + 8 * m) v := by
  have bounds : alignStack uargv.length uenvp.length (platform - 16) % 16 = 0 ∧
      alignStack uargv.length uenvp.length (platform - 16) ≤ platform - 16 := by
    unfold alignStack
    simp only
    split
    · rw [sub64_eq (by omega)]
      omega
    · omega
  obtain ⟨base, isBase⟩ : ∃ base, base = alignStack uargv.length uenvp.length (platform - 16) :=
    ⟨_, rfl⟩
  obtain ⟨random, B, wrote, outside, -⟩ :=
    pushWords_spec refines [xorshift (xorshift seed), xorshift seed] platform aligned
      (show 16 ≤ platform by omega) user fun w lower upper =>
        mapped w (by change platform - 16 ≤ w at lower; omega) upper
  change _ = platform - 16 at random
  obtain ⟨ws, isWords⟩ : ∃ ws, ws = auxvWords (auxv h loadBase platform execfn (platform - 16)) ++
    0 :: uenvp.reverse ++ 0 :: uargv.reverse ++ [uargv.length] := ⟨_, rfl⟩
  have count : ws.length = vectorWords uargv.length uenvp.length execfns := by
    rw [isWords]
    simp only [length_append, length_cons, length_nil, length_reverse,
      auxvWords_length, auxv_length h loadBase platform (platform - 16) given, vectorWords]
    omega
  have backwards : ws.reverse = vectors h loadBase platform execfn uargv uenvp := by
    simp [isWords, vectors]
  obtain ⟨final, C, wrote', outside', words⟩ := pushWords_spec wrote.refines ws base (by omega)
    (by omega) (by omega) fun w lower upper => by
      change ∀ w, w < platform - 16 ∨ platform ≤ w → B w = A w at outside
      rw [outside w (by omega)]
      exact mapped w (by omega) (by omega)
  have bottom : base - 8 * ws.length = sp := by omega
  rw [bottom] at final wrote' outside' words
  unfold pushVectors
  simp only [random, ← isWords, ← isBase]
  refine ⟨final, C, ?_, ?_, ?_⟩
  · refine (wrote.trans wrote' fun w range => by omega).widen fun w range => ?_
    change (platform - 16 ≤ w ∧ w < platform) ∨ _ at range
    omega
  · intro w away
    change ∀ w, w < platform - 16 ∨ platform ≤ w → B w = A w at outside
    rw [outside' w (by omega), outside w (by omega)]
  · intro m v listed
    exact words m v (backwards ▸ listed)

end

/-- A read through the page table gives this word. -/
def ReadsWord (s : Phys) (pml4 a v : Nat) : Prop :=
  (∀ i < 8, vmmVirtToPhys s.mem pml4 (a + i) ≠ 0) ∧
    Bytes.word (fun w => s.mem (vmmVirtToPhys s.mem pml4 w)) a 8 = v

/-- The bytes of stack the strings, the vectors and the padding take. -/
def stackUse (argv envp : List CString) (execfn : Option CString) : Nat :=
  let strings := stringsSize envp + stringsSize argv + stringsSize execfn.toList
  let pad := if (17 + envp.length + argv.length) % 2 = 1 then 8 else 0
  (strings + 24 + pad + 15) / 16 * 16 + 8 * vectorWords argv.length envp.length execfn.toList.length

lemma stackTop_place : stackTop % 4096 = 0 ∧ stackTop ≤ userEnd ∧
    userStackBase + 65536 = stackTop ∧ 65536 ≤ stackTop := by
  unfold stackTop userStackBase userEnd
  decide

lemma stackFlags_low (nx stackExec : Bool) : finalFlags nx (stackFlags nx stackExec) < 4096 := by
  cases nx <;> cases stackExec <;> decide

lemma allocUserStack_spec {A : Space}
    (refines : Refines own root s A) {nx stackExec : Bool}
    (allocated : allocUserStack nx s (root * 4096) stackExec = some s') :
    Refines own root s' (A.mapFresh userStackBase stackPages) ∧ s.Touches (Writable own root) s' :=
  refines.mapFreshPages_spec (by unfold userStackBase; decide)
    (by unfold userStackBase stackPages userEnd; decide) (stackFlags_low nx stackExec) allocated

lemma stackUse_place (argv envp : List CString) (execfn : Option CString) {top strings : Nat}
    (isStrings : strings = stringsSize envp + stringsSize argv + stringsSize execfn.toList)
    (aligned : top % 4096 = 0) (room : stackUse argv envp execfn ≤ top) :
    top - stackUse argv envp execfn + 8 * vectorWords argv.length envp.length execfn.toList.length =
      alignStack argv.length envp.length (top - strings - 8 - 16) := by
  unfold stackUse at *
  unfold alignStack
  simp only [← isStrings] at *
  have slots : 14 + (envp.length + 1) + (argv.length + 1) + 1 = 17 + envp.length + argv.length := by
    omega
  rw [slots]
  split at room
  next odd =>
    rw [if_pos odd, if_pos odd, sub64_eq (by omega)]
    omega
  next even =>
    rw [if_neg even, if_neg even]
    omega

lemma pushExecfn_address (pml4 : Nat) (execfn : Option CString) (s : Phys) (sp : Nat)
    (positive : 0 < (pushExecfn pml4 execfn s sp).2.1) :
    execfn.toList.length = if (pushExecfn pml4 execfn s sp).2.2 ≠ 0 then 1 else 0 := by
  cases execfn with
  | none => rfl
  | some str => exact (if_pos (Nat.pos_iff_ne_zero.mp positive)).symm

/-- All strings are pushed like those of one list, and then the platform's and the vectors. -/
lemma elfBuildStack_eq (s : Phys) (pml4 seed : Nat) (argv envp : List CString) (h : Ehdr)
    (loadBase : Nat) (execfn : Option CString) {pointers : List Nat}
    (pushed : pushStrings pml4 (execfn.toList ++ (argv ++ envp)) s stackTop = (s', sp, pointers))
    (positive : 0 < sp) :
    ∃ uexecfn uargv uenvp, elfBuildStack s pml4 seed argv envp h loadBase execfn =
        pushVectors pml4 seed h loadBase (pushString pml4 .platform s' sp).2 uexecfn uargv uenvp
          (pushString pml4 .platform s' sp).1 ∧
      execfn.toList.length = (if uexecfn ≠ 0 then 1 else 0) ∧
      uargv.length = argv.length ∧ uenvp.length = envp.length ∧
      pointers.drop execfn.toList.length = uargv ++ uenvp := by
  rw [pushStrings_append, pushStrings_append] at pushed
  have environment := pushStrings_length pml4 envp s stackTop
  unfold elfBuildStack
  rcases ranEnv : pushStrings pml4 envp s stackTop with ⟨s₁, sp₁, uenvp⟩
  simp only [ranEnv] at pushed environment ⊢
  have arguments := pushStrings_length pml4 argv s₁ sp₁
  rcases ranArg : pushStrings pml4 argv s₁ sp₁ with ⟨s₂, sp₂, uargv⟩
  simp only [ranArg] at pushed arguments ⊢
  have name := pushStrings_length pml4 execfn.toList s₂ sp₂
  obtain ⟨sameMemory, samePointer⟩ := pushExecfn_eq pml4 execfn s₂ sp₂
  have address := pushExecfn_address pml4 execfn s₂ sp₂
  simp only [Prod.mk.injEq, ← sameMemory, ← samePointer] at pushed
  obtain ⟨rfl, rfl, rfl⟩ := pushed
  refine ⟨(pushExecfn pml4 execfn s₂ sp₂).2.2, uargv, uenvp, rfl, address positive, arguments,
    environment, ?_⟩
  rw [← name, drop_left]

lemma stringsSize_mod (strs : List CString) : stringsSize strs % 8 = 0 := by
  induction strs with
  | nil => rfl
  | cons str strs ih =>
    have total : stringsSize (str :: strs) = str.size + stringsSize strs := rfl
    rw [total, CString.size]
    omega

lemma pushStrings_sp (pml4 : Nat) (strs : List CString) (s : Phys) (sp : Nat) (aligned : sp % 8 = 0)
    (room : stringsSize strs ≤ sp) : (pushStrings pml4 strs s sp).2.1 = sp - stringsSize strs := by
  induction strs with
  | nil => rfl
  | cons str strs ih =>
    have total : stringsSize (str :: strs) = str.size + stringsSize strs := rfl
    have multiple := stringsSize_mod strs
    simp only [pushStrings, ih (by omega)]
    rw [pushString_sp pml4 str _ _ (by omega) (by omega)]
    omega

/-! ## Strings in the next frame -/

/-- The stack is mapped, and the frames after those of its pages from `low` on are no tables. -/
structure Spared (root : Nat) (s : Phys) (low : Nat) : Prop where
  mapped : ∀ w, userStackBase ≤ w → w < stackTop → ∃ f, s.page root w = some f
  after : ∀ w f, low ≤ w → w < stackTop → s.page root w = some f → ¬ s.IsTable root (f + 1)

/-- The tables of the process are as they were. -/
structure KeepsTables (own : Nat → Prop) (root : Nat) (s s' : Phys) : Prop where
  tree : UserTree own root s'
  walks : ∀ q, userPath q → s'.walk root q = s.walk root q

section

variable {low : Nat}

lemma KeepsTables.trans {s'' : Phys} (first : KeepsTables own root s s') (second : KeepsTables own root s' s'') :
    KeepsTables own root s s'' :=
  ⟨second.tree, fun q at_q => (second.walks q at_q).trans (first.walks q at_q)⟩

lemma KeepsTables.page (keeps : KeepsTables own root s s') {w : Nat} (user : w < userEnd) :
    s'.page root w = s.page root w :=
  keeps.walks _ (userPath_path user)

lemma Spared.congr (spared : Spared root s low) (keeps : KeepsTables own root s s') : Spared root s' low := by
  have top := stackTop_place.2.1
  refine ⟨fun w lower upper => ?_, fun w f lower upper found isTable => ?_⟩
  · rw [keeps.page (by omega)]
    exact spared.mapped w lower upper
  · rw [keeps.page (by omega)] at found
    obtain ⟨q, at_q, short, reached⟩ := isTable
    exact spared.after w f lower upper found ⟨q, at_q, short, keeps.walks q at_q ▸ reached⟩

variable (inStack : userStackBase ≤ low)

include inStack

/-- A copy reaches no further than the frame after that of its page. -/
lemma hhdmCopyToUser_keeps (tree : UserTree own root s) (spared : Spared root s low) {uva : Nat}
    (src : Nat → UInt8) (len : Nat) (lower : low ≤ uva) (upper : uva + len ≤ stackTop) :
    KeepsTables own root s (hhdmCopyToUser s (root * 4096) uva src len) := by
  have top := stackTop_place.2.1
  induction len using Nat.strong_induction_on generalizing s uva src with
  | _ len ih =>
    rw [hhdmCopyToUser]
    split
    · exact ⟨tree, fun _ _ => rfl⟩
    rename_i more
    have inUser : uva + len ≤ userEnd := upper.trans top
    obtain ⟨positive, atMost, inPage, noWrap⟩ := chunkLen_facts more inUser
    obtain ⟨f, here⟩ := spared.mapped uva (by omega) (by omega)
    have user : uva < userEnd := by omega
    simp only [noWrap, tree.translate_mapped user here]
    have others : ∀ g, s.IsTable root g → ∀ x, x / 4096 = g →
        (s.store (f * 4096 + uva % 4096 + uva % 4096) (chunkLen uva len) src).mem x = s.mem x := by
      refine fun g isTable x inFrame => store_outside fun range => ?_
      rcases (by omega : g = f ∨ g = f + 1) with rfl | rfl
      · exact tree.page_not_table (userPath_path user) (by simp [path]) here isTable
      · exact spared.after uva f lower (by omega) here isTable
    obtain ⟨tree', walks⟩ := tree.congr others suffix_rfl
    have first : KeepsTables own root s
        (s.store (f * 4096 + uva % 4096 + uva % 4096) (chunkLen uva len) src) := ⟨tree', walks⟩
    exact first.trans (ih _ (by omega) first.tree (spared.congr first) _ (by omega) (by omega))

end

/-- Where the platform string goes. -/
def platformPlace (argv envp : List CString) (execfn : Option CString) : Nat :=
  stackTop - (stringsSize envp + stringsSize argv + stringsSize execfn.toList) - 8

section

variable {low pml4 : Nat} {Q : Phys → Prop} (copies : ∀ s uva src len, Q s → 0 < len → low ≤ uva →
  uva + len ≤ stackTop → Q (hhdmCopyToUser s pml4 uva src len))

include copies

/-- What each copy into the stack keeps, pushing a string keeps. -/
lemma pushString_copies (str : CString) (sp : Nat) (aligned : sp % 8 = 0) (room : low + str.size ≤ sp)
    (upper : sp ≤ stackTop) (before : Q s) : Q (pushString pml4 str s sp).1 := by
  have place := pushString_sp pml4 str s sp aligned (by omega)
  have inside : str.strlen + 1 ≤ str.size := by
    unfold CString.size
    omega
  simp only [pushString] at place ⊢
  rw [place]
  exact copies _ _ _ _ before (by omega) (by omega) (by omega)

lemma pushStrings_copies (strs : List CString) (aligned : sp % 8 = 0) (room : low + stringsSize strs ≤ sp)
    (upper : sp ≤ stackTop) (before : Q s) : Q (pushStrings pml4 strs s sp).1 := by
  induction strs with
  | nil => exact before
  | cons str strs ih =>
    have total : stringsSize (str :: strs) = str.size + stringsSize strs := rfl
    have multiple := stringsSize_mod strs
    simp only [pushStrings, pushStrings_sp pml4 strs s sp aligned (by omega)]
    exact pushString_copies copies str _ (by omega) (by omega) (by omega) (ih (by omega))

end

/-- The strings are copied from `low` on, and the vectors are written to the stack below them. -/
lemma elfBuildStack_spec {low : Nat} {Q : Phys → Prop} {argv envp : List CString} {execfn : Option CString}
    (isLow : low = platformPlace argv envp execfn)
    (copies : ∀ s uva src len, Q s → 0 < len → low ≤ uva → uva + len ≤ stackTop →
      Q (hhdmCopyToUser s (root * 4096) uva src len))
    (maps : ∀ s, Q s → ∃ A, Refines own root s A ∧ ∀ w, userStackBase ≤ w → w < stackTop → A w ≠ none)
    (before : Q s) {seed : Nat} {h : Ehdr} {loadBase : Nat} (fits : stackUse argv envp execfn ≤ stackPages * 4096)
    (built : elfBuildStack s (root * 4096) seed argv envp h loadBase execfn = (s', sp)) :
    ∃ s₂, Q s₂ ∧ ∃ uexecfn uargv uenvp, uargv.length = argv.length ∧ uenvp.length = envp.length ∧
      ∃ B, Wrote own root s₂ s' B (fun w => userStackBase ≤ w ∧ w < stackTop) ∧
        ∀ m v, (vectors h loadBase low uexecfn uargv uenvp)[m]? = some v →
          sp + 8 * m + 8 ≤ userEnd ∧ HoldsWord B (sp + 8 * m) v := by
  have top := stackTop_place
  have atMost : stackUse argv envp execfn ≤ 65536 := fits
  have place := stackUse_place argv envp execfn rfl top.1 (atMost.trans top.2.2.2)
  have needed : stringsSize envp + stringsSize argv + stringsSize execfn.toList + 24 ≤
      stackUse argv envp execfn ∧
      8 * vectorWords argv.length envp.length execfn.toList.length ≤ stackUse argv envp execfn := by
    simp only [stackUse]
    omega
  generalize stackUse argv envp execfn = use at atMost place needed
  have total : stringsSize (execfn.toList ++ (argv ++ envp)) =
      stringsSize envp + stringsSize argv + stringsSize execfn.toList := by
    rw [stringsSize_append, stringsSize_append]
    omega
  have below : low + stringsSize (execfn.toList ++ (argv ++ envp)) + 8 = stackTop := by
    rw [isLow, platformPlace, total]
    omega
  have multiple := stringsSize_mod (execfn.toList ++ (argv ++ envp))
  have high : 24 ≤ userStackBase := by
    unfold userStackBase
    decide
  have first := pushStrings_copies copies (execfn.toList ++ (argv ++ envp)) (by omega) (by omega) le_rfl before
  have isTop := pushStrings_sp (root * 4096) (execfn.toList ++ (argv ++ envp)) s stackTop (by omega)
    (by omega)
  obtain ⟨⟨s₁, sp₁, pointers⟩, pushed⟩ :
    ∃ r, pushStrings (root * 4096) (execfn.toList ++ (argv ++ envp)) s stackTop = r := ⟨_, rfl⟩
  rw [pushed] at first isTop
  dsimp only at first isTop
  obtain ⟨uexecfn, uargv, uenvp, ran, given, count, countEnv, -⟩ :=
    elfBuildStack_eq s (root * 4096) seed argv envp h loadBase execfn pushed (by omega)
  have platformSize : CString.platform.size = 8 := rfl
  have isPlatform := pushString_sp (root * 4096) .platform s₁ sp₁ (by omega) (by omega)
  have second := pushString_copies copies .platform sp₁ (by omega) (by omega) (by omega) first
  rw [ran] at built
  rcases ranPlatform : pushString (root * 4096) .platform s₁ sp₁ with ⟨s₂, platform⟩
  simp only [ranPlatform] at isPlatform second built
  obtain rfl : low = platform := by omega
  rw [show stackTop - (stringsSize envp + stringsSize argv + stringsSize execfn.toList) - 8 = low by omega,
    ← count, ← countEnv] at place
  rw [← count, ← countEnv] at needed
  obtain ⟨A, refines, mapped⟩ := maps s₂ second
  obtain ⟨final, B, wrote, -, words⟩ := pushVectors_spec refines seed h loadBase uargv uenvp given
    (by omega) place (by omega) (by omega) fun w lower upper => mapped w (by omega) (by omega)
  rw [built] at final wrote
  dsimp only at final
  subst final
  refine ⟨s₂, second, uexecfn, uargv, uenvp, count, countEnv, B, wrote.widen fun w range => by omega,
    fun m v listed => ?_⟩
  have bound := (List.getElem?_eq_some_iff.mp listed).1
  refine ⟨?_, words m v listed⟩
  simp only [vectors, length_append, length_cons, length_reverse, auxvWords_length,
    auxv_length h loadBase low (low - 16) given] at bound
  simp only [vectorWords] at needed
  omega

/-- The words of the vectors can be read at the stack pointer. -/
lemma elfBuildStack_vectors (tree : UserTree own root s) {argv envp : List CString} {execfn : Option CString}
    (spared : Spared root s (platformPlace argv envp execfn)) (seed : Nat) (h : Ehdr) (loadBase : Nat)
    (fits : stackUse argv envp execfn ≤ stackPages * 4096) :
    ∃ uexecfn uargv uenvp, uargv.length = argv.length ∧ uenvp.length = envp.length ∧
      ∀ m v, (vectors h loadBase (platformPlace argv envp execfn) uexecfn uargv uenvp)[m]? = some v →
        v < 2 ^ 64 → ReadsWord (elfBuildStack s (root * 4096) seed argv envp h loadBase execfn).1
          (root * 4096) ((elfBuildStack s (root * 4096) seed argv envp h loadBase execfn).2 + 8 * m) v := by
  have inStack : userStackBase ≤ platformPlace argv envp execfn := by
    have top := stackTop_place
    have atMost : stackUse argv envp execfn ≤ 65536 := fits
    simp only [platformPlace, stackUse] at *
    omega
  obtain ⟨s₂, -, uexecfn, uargv, uenvp, count, countEnv, B, wrote, words⟩ := elfBuildStack_spec rfl
    (fun s₁ uva src len keeps _ lower upper => keeps.trans
      (hhdmCopyToUser_keeps inStack keeps.tree (spared.congr keeps) src len lower upper))
    (fun s₁ keeps => ⟨s₁.peek root, ⟨keeps.tree, fun _ _ => rfl⟩, fun w lower upper => by
      obtain ⟨f, found⟩ := (spared.congr keeps).mapped w lower upper
      rw [Phys.peek, found]
      exact some_ne_none _⟩) (KeepsTables.mk tree fun _ _ => rfl) fits
    (Prod.mk.eta (p := elfBuildStack s (root * 4096) seed argv envp h loadBase execfn)).symm
  refine ⟨uexecfn, uargv, uenvp, count, countEnv, fun m v listed small => ?_⟩
  obtain ⟨user, holds⟩ := words m v listed
  have digits := fun i (inside : i < 8) => wrote.refines.read (by omega) (holds i inside)
  refine ⟨fun i inside => (digits i inside).1, ?_⟩
  rw [word_digits fun i inside => (digits i inside).2]
  omega

/-- A machine whose allocator returns these frames, in this order. -/
def freshMachine (frames : List Nat) : Phys where
  mem := fun _ => 0
  free := frames
  writes := []

end Znu.Elf
