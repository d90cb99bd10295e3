import DripCore.VerifyScript

/-!
# Verification flags are soft forks

What is accepted under some flags is accepted under fewer of them. Every function that reads flags
is shown to be refined when flags are added: each check is only made more often.

The proof follows the interpreter downwards, from the verification of an input to single opcodes.
Where a flag changes a computation and does not only add a check, the two results are compared.
-/
namespace DripCore
open ExceptRules Refines

namespace ScriptVerifyFlags

def Subset (A B : ScriptVerifyFlags) : Prop := ∀ flag, A flag = true → B flag = true

/-- The combinations of flags that may be asked for. -/
structure Valid (flags : ScriptVerifyFlags) : Prop where
  cleanStack : flags .cleanStack = true → flags .p2sh = true ∧ flags .witness = true
  witness : flags .witness = true → flags .p2sh = true

end ScriptVerifyFlags

/-- What is returned under more flags is returned under fewer. -/
abbrev SoftFork {α : Type} (A B : ScriptVerifyFlags) (f : ScriptVerifyFlags → ScriptResult α) :
    Prop :=
  Refines (f B) (f A)

section
variable {a b : Bool}

variable (h : a = true → b = true)
include h

theorem refines_scriptNum (nmn : ℕ) (vch : Valtype) : Refines (scriptNum b nmn vch)
    (scriptNum a nmn vch) := by
  apply Refines.bind (.refl _)
  intro _
  apply Refines.bind
  · apply Refines.failIf
    grind
  · intro _
    exact .refl _

theorem refines_evalPick (ro : Bool) (stack : List Valtype) :
    Refines (evalPick b ro stack) (evalPick a ro stack) := by
  unfold evalPick
  split
  · exact .bind (refines_scriptNum h _ _) fun _ => .refl _
  · exact .refl _

theorem refines_evalUnary (op : UnaryOp) (stack : List Valtype) :
    Refines (evalUnary b op stack) (evalUnary a op stack) := by
  unfold evalUnary
  split
  · exact .bind (refines_scriptNum h _ _) fun _ => .refl _
  · exact .refl _

theorem refines_evalBinary (op : BinaryOp) (stack : List Valtype) :
    Refines (evalBinary b op stack) (evalBinary a op stack) := by
  unfold evalBinary
  split
  · apply bind (refines_scriptNum h _ _)
    intro _
    exact .bind (refines_scriptNum h _ _) fun _ => .refl _
  · exact .refl _

theorem refines_evalWithin (stack : List Valtype) : Refines (evalWithin b stack)
    (evalWithin a stack) := by
  unfold evalWithin
  split
  · apply bind (refines_scriptNum h _ _)
    intro _
    apply bind (refines_scriptNum h _ _)
    intro _
    exact .bind (refines_scriptNum h _ _) fun _ => .refl _
  · exact .refl _

end

variable {crypto : ScriptCrypto} {checker : SignatureChecker} {A B : ScriptVerifyFlags}

section
variable {s : SigVersion} (h : A.Subset B)
include h

theorem refines_signature (vs : Valtype) : SoftFork A B fun f =>
    checkSignatureEncoding crypto f vs := by
  apply ite (.refl _)
  apply Refines.bind
  · apply Refines.failIf
    grind [h .derSig,h .lowS,h .strictEnc]
  intro _
  apply Refines.bind (.checkIf (h .lowS) (.refl _))
  intro _
  apply Refines.failIf
  grind [h .strictEnc]

theorem refines_pubKeyEncoding (vpk : Valtype) : SoftFork A B fun f =>
    checkPubKeyEncoding f vpk s := by
  apply Refines.bind
  · apply Refines.failIf
    grind [h .strictEnc]
  intro _
  apply Refines.failIf
  grind [h .witnessPubkeyType]

theorem refines_dropSignature (vs : Valtype) (sc : CScript) : SoftFork A B fun f =>
    dropSignature f s vs sc := by
  apply Refines.ite _ (.refl _)
  apply Refines.bind _ fun _ => .refl _
  apply Refines.failIf
  grind [h .constScriptCode]

theorem refines_checksigPre (vs vpk : Valtype) (pbegincodehash : CScript) : SoftFork A B fun f =>
      evalChecksigPreTapscript crypto checker f vs vpk pbegincodehash s := by
  apply bind (refines_dropSignature h _ _)
  intro sc
  apply bind (refines_signature h _)
  intro _
  apply bind (refines_pubKeyEncoding h _)
  intro _
  apply Refines.bind _ fun _ => .refl _
  apply Refines.failIf
  grind [h .nullFail]

theorem refines_checksigTap (sig p : Valtype) (execdata : ScriptExecutionData) :
    SoftFork A B fun f =>
      evalChecksigTapscript checker f sig p execdata s := by
  apply Refines.bind (.refl _)
  intro execdata
  apply Refines.bind (.refl _)
  intro _
  apply ite (.refl _)
  exact .bind (.failIf (h .discourageUpgradablePubkeyType) _) fun _ => .refl _

theorem refines_evalChecksig (sig p : Valtype) (pbegincodehash : CScript)
    (execdata : ScriptExecutionData) :
    SoftFork A B fun f =>
      evalChecksig crypto checker f sig p pbegincodehash execdata s := by
  cases s with
  | base => exact .bind (refines_checksigPre h _ _ _) fun _ => .refl _
  | witnessV0 => exact .bind (refines_checksigPre h _ _ _) fun _ => .refl _
  | tapscript => exact refines_checksigTap h _ _ _
  | taproot => exact .refl _

section
variable (sk : List Valtype)
include sk

theorem refines_operand : SoftFork A B fun f => lockTimeOperand f sk := by
  cases sk with
  | nil => exact .refl _
  | cons vch sk => exact .bind (refines_scriptNum (h .minimalData) _ _) fun _ => .refl _

theorem refines_lockTimeVerify : SoftFork A B fun f => evalCheckLockTimeVerify checker f sk :=
  .checkIf (h .checkLockTimeVerify) (.bind (refines_operand h sk) fun _ => .refl _)

theorem refines_sequenceVerify : SoftFork A B fun f => evalCheckSequenceVerify checker f sk :=
  .checkIf (h .checkSequenceVerify) (.bind (refines_operand h sk) fun _ => .refl _)

end

theorem refines_evalConditional (negated : Bool) (st : EvalState) :
    SoftFork A B fun f => evalConditional f s negated st := by
  apply Refines.ite _ (.refl _)
  split
  · exact .refl _
  · apply Refines.bind _ fun _ => .refl _
    apply Refines.bind (.refl _)
    intro _
    apply Refines.failIf
    rw [Bool.and_eq_true,Bool.and_eq_true,Bool.and_eq_true,Bool.and_eq_true]
    exact And.imp_left (And.imp_right (h .minimalIf))

theorem refines_evalChecksigOp (verify : Bool) (st : EvalState) :
    SoftFork A B fun f => evalChecksigOp crypto checker f s verify st := by
  unfold evalChecksigOp
  split
  · exact .bind (refines_evalChecksig h _ _ _ _) fun _ => .refl _
  · exact .refl _

theorem refines_evalChecksigAdd (st : EvalState) : SoftFork A B fun f =>
    evalChecksigAdd crypto checker f s st := by
  apply ite (.refl _)
  split
  · apply bind (refines_scriptNum (h .minimalData) _ _)
    intro num
    exact .bind (refines_evalChecksig h _ _ _ _) fun _ => .refl _
  · exact .refl _

theorem refines_dropSignatures (si : List Valtype) (sc : CScript) :
    SoftFork A B fun f => dropSignatures f s si sc := by
  induction si generalizing sc with
  | nil => exact .refl _
  | cons vs si ih => exact .bind (refines_dropSignature h _ _) fun sc => ih sc

theorem refines_multisigLoop (sc : CScript) (keys si : List Valtype) : SoftFork A B fun f =>
      multisigLoop crypto checker f s sc keys si := by
  induction keys generalizing si with
  | nil => cases si <;> exact .refl _
  | cons vpk keys ih =>
    cases si with
    | nil => exact .refl _
    | cons vs si =>
      apply bind (refines_signature h _)
      intro _
      apply bind (refines_pubKeyEncoding h _)
      intro _
      exact .ite (.refl _) (ih _)

theorem refines_cleanUpLoop (fs : Bool) (i ik : ℕ) (stack : List Valtype) :
    SoftFork A B fun f => cleanUpLoop f fs i ik stack := by
  induction i generalizing ik stack with
  | zero => exact .refl _
  | succ i ih =>
    cases stack with
    | nil => exact .refl _
    | cons top stack =>
      apply bind _ fun _ => ih _ _
      apply Refines.failIf
      grind [h .nullFail]

theorem refines_keysCount (st : EvalState) : SoftFork A B fun f => multisigKeysCount f st := by
  unfold multisigKeysCount
  split
  · exact .refl _
  · exact .bind (refines_scriptNum (h .minimalData) _ _) fun _ => .refl _

theorem refines_sigsCount (nkc : ℕ) (stack : List Valtype) :
    SoftFork A B fun f => multisigSigsCount f nkc stack := by
  unfold multisigSigsCount
  split
  · exact .refl _
  · exact .bind (refines_scriptNum (h .minimalData) _ _) fun _ => .refl _

theorem refines_popDummy (stack : List Valtype) : SoftFork A B fun f =>
      popDummy f stack := by
  cases stack with
  | nil => exact .refl _
  | cons d stack =>
    apply Refines.bind _ fun _ => .refl _
    apply Refines.failIf
    grind [h .nullDummy]

theorem refines_checkMultisig (verify : Bool) (st : EvalState) :
    SoftFork A B fun f => evalCheckMultisig crypto checker f s verify st := by
  apply ite (.refl _)
  apply bind (refines_keysCount h st)
  intro c
  apply bind (refines_sigsCount h _ _)
  intro nsc
  apply Refines.bind (.refl _)
  intro _
  apply bind (refines_dropSignatures h _ _)
  intro sc
  apply bind (refines_multisigLoop h _ _ _)
  intro fs
  apply bind (refines_cleanUpLoop h _ _ _ _)
  intro stack
  exact .bind (refines_popDummy h stack) fun _ => .refl _

omit h in
theorem refines_onStack (st : EvalState) {f g : List Valtype → ScriptResult (List Valtype)}
    (hf : ∀ stack, Refines (f stack) (g stack)) : Refines (onStack st f) (onStack st g) :=
  .bind (hf st.stack) fun _ => .refl _

theorem refines_evalOpcode (pc : CScript) (opcode_pos : ℕ) (st : EvalState) (opcode : Opcode) :
    SoftFork A B fun f =>
      evalOpcode crypto checker f s pc opcode_pos st opcode := by
  have hm := h .minimalData
  cases opcode with
  | checkLockTimeVerify =>
    exact .bind (refines_lockTimeVerify h _) fun _ => .refl _
  | checkSequenceVerify =>
    exact .bind (refines_sequenceVerify h _) fun _ => .refl _
  | upgradableNop =>
    exact .bind (.failIf (h .discourageUpgradableNops) _) fun _ => .refl _
  | conditional negated => exact refines_evalConditional h negated st
  | pick => exact refines_onStack st (refines_evalPick hm false)
  | roll => exact refines_onStack st (refines_evalPick hm true)
  | unary op => exact refines_onStack st (refines_evalUnary hm op)
  | binary op => exact refines_onStack st (refines_evalBinary hm op)
  | within => exact refines_onStack st (refines_evalWithin hm)
  | checkSig verify => exact refines_evalChecksigOp h verify st
  | checkSigAdd => exact refines_evalChecksigAdd h st
  | checkMultiSig verify => exact refines_checkMultisig h verify st
  -- the other opcodes read no flags
  | _ => exact .refl _

section
variable (o : BitVec 8) (v : Valtype) (pc : CScript) (oe : ℕ) (st : EvalState)
include o v pc oe st

theorem refines_dispatch : SoftFork A B fun f =>
      dispatch crypto checker f s o v pc oe st := by
  apply Refines.ite
  · apply Refines.bind _ fun _ => .refl _
    apply Refines.failIf
    grind [h .minimalData]
  · exact .ite (refines_evalOpcode h _ _ _ _) (.refl _)

theorem refines_evalStep : SoftFork A B fun f =>
      evalStep crypto checker f s o v pc oe st := by
  apply Refines.bind (.refl _)
  intro _
  apply Refines.bind (.refl _)
  intro _
  apply Refines.bind (.refl _)
  intro _
  apply Refines.bind
  · apply Refines.failIf
    grind [h .constScriptCode]
  intro _
  exact .bind (refines_dispatch h _ _ _ _ _) fun _ => .refl _

end

theorem refines_evalLoop (fuel : ℕ) (pc : CScript) (opcode_pos : ℕ) (st : EvalState) :
    SoftFork A B fun f => evalLoop crypto checker f s fuel pc opcode_pos st := by
  induction fuel generalizing pc opcode_pos st with
  | zero => exact .refl _
  | succ fuel ih =>
    apply ite (.refl _)
    split
    · exact .refl _
    · exact .bind (refines_evalStep h _ _ _ _ _) fun st => ih _ _ st

theorem refines_evalScript (stack : List Valtype) (script : CScript)
    (execdata : ScriptExecutionData) :
    SoftFork A B fun f => evalScript crypto checker f s stack script execdata := by
  apply ite (.refl _)
  apply Refines.bind (.refl _)
  intro _
  exact .bind (refines_evalLoop h _ _ _ _) fun _ => .refl _

theorem refines_witnessScript (stack : List Valtype) (es : CScript)
    (execdata : ScriptExecutionData) :
    SoftFork A B fun f =>
      executeWitnessScript crypto checker f stack es s execdata := by
  apply Refines.bind (.refl _)
  intro fo
  apply ite (.failIf (h .discourageOpSuccess) _)
  apply Refines.bind (.refl _)
  intro _
  apply Refines.bind (.refl _)
  intro _
  exact .bind (refines_evalScript h _ _ _) fun _ => .refl _

theorem refines_verifyWitnessV0 (stack : List Valtype) (p : Valtype) :
    SoftFork A B fun f => verifyWitnessV0 crypto checker f stack p := by
  apply Refines.ite
  · split
    · exact .refl _
    · exact .bind (.refl _) fun _ => refines_witnessScript h _ _ _
  · apply Refines.ite _ (.refl _)
    exact .bind (.refl _) fun _ => refines_witnessScript h _ _ _

variable (wi : List Valtype)
include wi

theorem refines_scriptPath (c script : Valtype) (stack : List Valtype) (p : Valtype)
    (execdata : ScriptExecutionData) :
    SoftFork A B fun f =>
      verifyScriptPath crypto checker f wi c script stack p execdata := by
  apply Refines.bind (.refl _)
  intro _
  apply Refines.bind (.refl _)
  intro _
  exact .ite (refines_witnessScript h _ _ _) (.failIf (h .discourageUpgradableTaprootVersion) _)

theorem refines_verifyTaproot (p : Valtype) : SoftFork A B fun f =>
    verifyTaproot crypto checker f wi p := by
  apply ite (.refl _)
  split
  · exact .refl _
  · exact refines_scriptPath h _ _ _ _ _ _
  · exact .refl _

theorem refines_witnessProgram (w : ℕ) (p : Valtype) (ips : Bool) : SoftFork A B fun f =>
      verifyWitnessProgram crypto checker f wi w p ips := by
  apply ite (refines_verifyWitnessV0 h _ _)
  apply ite (.checkIf (h .taproot) (refines_verifyTaproot h _ _))
  exact .ite (.refl _) (.failIf (h .discourageUpgradableWitnessProgram) _)

end

theorem embedded_of_not (hA : A .witness = false) (script : CScript)
    (m : Bool) (s : ScriptError) (ips : Bool) (witness stack : List Valtype)
    (had : Bool) :
    verifyEmbeddedProgram crypto checker A script m s ips witness stack had = .ok (stack,had) := by
  rw [verifyEmbeddedProgram,hA]
  rfl

section
variable (h : A.Subset B)
include h

/-- Flags that ask for witnesses agree on what is a witness program. -/
theorem refines_embedded (hA : A .witness = true) (script : CScript) (m : Bool)
    (s : ScriptError) (ips : Bool) (witness stack : List Valtype) (had : Bool) : Refines
      (verifyEmbeddedProgram crypto checker B script m s ips witness stack had)
      (verifyEmbeddedProgram crypto checker A script m s ips witness stack had) := by
  unfold verifyEmbeddedProgram
  rw [hA,h .witness hA]
  apply Refines.ite _ (.refl _)
  split
  · exact .refl _
  · apply Refines.bind (.refl _)
    intro _
    exact .bind (refines_witnessProgram h _ _ _ _) fun _ => .refl _

theorem refines_redeemScript (hA : A .witness = true) (scriptSig : CScript)
    (witness sc : List Valtype) (had : Bool) :
    SoftFork A B fun f =>
      verifyRedeemScript crypto checker f scriptSig witness sc had := by
  apply Refines.bind (.refl _)
  intro _
  split
  · exact .refl _
  · apply bind (refines_evalScript h _ _ _)
    intro stack
    exact .bind (.refl _) fun _ => refines_embedded h hA _ _ _ _ _ _ _

variable {had : Bool} {r : List Valtype × Bool} {ss : CScript}
    {w : List Valtype}

/-- Without the flag for witnesses the redeem script only has to leave a true value. -/
theorem redeem_of_not_witness (hA : A .witness = false) {sc : List Valtype}
    (hr : verifyRedeemScript crypto checker B ss w sc had = .ok r)
    (had' : Bool) :
    ∃ stack, verifyRedeemScript crypto checker A ss w sc had' = .ok (stack,had') := by
  obtain ⟨_,hp,hr⟩ := bind_eq_ok.mp hr
  cases sc with
  | nil => exact nomatch hr
  | cons pk stack =>
    obtain ⟨stack',he,hr⟩ := bind_eq_ok.mp hr
    obtain ⟨_,ht,_⟩ := bind_eq_ok.mp hr
    have hs : evalScript crypto checker A .base stack pk .init = .ok stack' :=
      refines_evalScript h _ _ _ _ he
    use stack'
    rw [verifyRedeemScript,hp,ok_bind,hs,ok_bind,ht,ok_bind,embedded_of_not hA]

theorem refines_scriptHash (hv : A.Valid) (hA : A .witness = true)
    (ss scriptPubKey : CScript) (w sc stack : List Valtype) (had : Bool) :
    Refines (verifyPayToScriptHash crypto checker B ss scriptPubKey w sc stack had)
      (verifyPayToScriptHash crypto checker A ss scriptPubKey w sc stack had) := by
  have hp2 := hv.witness hA
  unfold verifyPayToScriptHash
  rw [hp2,h .p2sh hp2]
  exact .ite (refines_redeemScript h hA _ _ _ _) (.refl _)

/-- The stack that the input left is there when the flag for script hashes is. -/
theorem scriptHash_of_not (hA : A .witness = false) {scriptPubKey : CScript}
    {left stack : List Valtype}
    (hr : verifyPayToScriptHash crypto checker B ss scriptPubKey w
      (if B .p2sh then left else []) stack had = .ok r)
    (stack' : List Valtype) (had' : Bool) :
    ∃ stack'', verifyPayToScriptHash crypto checker A ss scriptPubKey w
      (if A .p2sh then left else []) stack' had' = .ok (stack'',had') := by
  unfold verifyPayToScriptHash at hr ⊢
  by_cases hh : A .p2sh = true ∧ scriptPubKey.isPayToScriptHash = true
  · have hp2 := h .p2sh hh.1
    rw [if_pos ⟨hp2,hh.2⟩,if_pos hp2] at hr
    rw [if_pos hh,if_pos hh.1]
    exact redeem_of_not_witness h hA hr had'
  · rw [if_neg hh]
    exact ⟨stack',rfl⟩

theorem refines_finalStack (hv : A.Valid) (w stack : List Valtype) (had : Bool) :
    SoftFork A B fun f => checkFinalStack f w stack had := by
  have hc := hv.cleanStack
  have hw := hv.witness
  apply Refines.bind
  · apply Refines.failIf
    grind
  intro _
  apply Refines.bind
  · apply Refines.failIf
    grind
  intro _
  apply Refines.bind
  · apply Refines.failIf
    grind [h .cleanStack]
  intro _
  apply Refines.bind
  · apply Refines.failIf
    grind
  intro _
  apply Refines.failIf
  grind [h .witness]

end

theorem finalStack_of_not (hv : A.Valid) (hA : A .witness = false) (witness stack : List Valtype)
    (had : Bool) :
    checkFinalStack A witness stack had = .ok () := by
  have hc : A .cleanStack = false := by
    have hc := hv.cleanStack
    grind
  rw [checkFinalStack,hA,hc]
  rfl

theorem refines_of_witness (h : A.Subset B) (hv : A.Valid) (hA : A .witness = true)
    (scriptSig scriptPubKey : CScript) (witness : List Valtype) :
    SoftFork A B fun f => verifyScript crypto checker f scriptSig scriptPubKey witness := by
  have hp2 := hv.witness hA
  unfold SoftFork verifyScript
  beta_reduce
  rw [hp2,h .p2sh hp2]
  apply Refines.bind
  · apply Refines.failIf
    grind [h .sigPushOnly]
  intro _
  apply bind (refines_evalScript h _ _ _)
  intro left
  apply bind (refines_evalScript h _ _ _)
  intro stack
  apply Refines.bind (.refl _)
  intro _
  apply bind (refines_embedded h hA _ _ _ _ _ _ _)
  intro aw
  apply bind (refines_scriptHash h hv hA _ _ _ _ _ _)
  intro ah
  exact refines_finalStack h hv _ _ _

theorem refines_of_not_witness (h : A.Subset B) (hv : A.Valid)
    (hA : A .witness = false) (scriptSig scriptPubKey : CScript) (witness : List Valtype) :
    SoftFork A B fun f => verifyScript crypto checker f scriptSig scriptPubKey witness := by
  apply Refines.bind
  · apply Refines.failIf
    grind [h .sigPushOnly]
  intro _
  apply bind (refines_evalScript h _ _ _)
  intro left
  apply bind (refines_evalScript h _ _ _)
  intro stack
  apply Refines.bind (.refl _)
  intro _ result hr
  obtain ⟨aw,_,hr⟩ := bind_eq_ok.mp hr
  obtain ⟨ah,hr,_⟩ := bind_eq_ok.mp hr
  obtain ⟨stack',hh⟩ := scriptHash_of_not h hA hr stack false
  rw [embedded_of_not hA,ok_bind]
  dsimp only
  rw [hh]
  exact finalStack_of_not hv hA _ _ _

theorem flags_are_soft_forks (crypto : ScriptCrypto) (checker : SignatureChecker)
    (A B : ScriptVerifyFlags) (h : A.Subset B) (hA : A.Valid) (_ : B.Valid) :
    (∀ sigversion stack script execdata result,
      evalScript crypto checker B sigversion stack script execdata = .ok result →
        evalScript crypto checker A sigversion stack script execdata = .ok result) ∧
    ∀ scriptSig scriptPubKey witness,
      verifyScript crypto checker B scriptSig scriptPubKey witness = .ok () →
        verifyScript crypto checker A scriptSig scriptPubKey witness = .ok () := by
  constructor
  · intro sigversion stack script execdata
    exact refines_evalScript h stack script execdata
  · intro scriptSig scriptPubKey witness
    cases hw : A .witness with
    | true => exact refines_of_witness h hA hw scriptSig scriptPubKey witness ()
    | false => exact refines_of_not_witness h hA hw scriptSig scriptPubKey witness ()

/-- A spend by a witness script, with hash functions that return a fixed value. -/
def sampleCrypto : ScriptCrypto where
  ripemd160 _ := []
  sha1 _ := []
  sha256 _ := List.replicate 32 1#8
  taggedHash _ _ := []
  checkLowS _ := false
  checkTapTweak _ _ _ _ := false

def sampleChecker : SignatureChecker where
  checkECDSASignature _ _ _ _ := false
  checkSchnorrSignature _ _ _ _ := .error .schnorrSig
  checkLockTime _ := false
  checkSequence _ := false

/-- `SCRIPT_VERIFY_P2SH`, `SCRIPT_VERIFY_WITNESS` and `SCRIPT_VERIFY_CLEANSTACK`. -/
def sampleFlags (flag : ScriptVerifyFlag) : Bool := flag ∈ [.p2sh,.witness,.cleanStack]

def samplePubKey : CScript := op0::0x20#8::List.replicate 32 1#8

theorem witness_script_without_flags :
    verifyScript sampleCrypto sampleChecker sampleFlags [] samplePubKey [[op1]] = .ok () ∧
      verifyScript sampleCrypto sampleChecker (fun _ => false) [] samplePubKey [[op1]] =
        .ok () := by
  have hr : verifyScript sampleCrypto sampleChecker sampleFlags [] samplePubKey [[op1]] = .ok () :=
    rfl
  have hs : ScriptVerifyFlags.Subset (fun _ => false) sampleFlags := nofun
  have he : ScriptVerifyFlags.Valid fun _ => false := ⟨nofun,nofun⟩
  have hv : ScriptVerifyFlags.Valid sampleFlags := ⟨fun _ => ⟨rfl,rfl⟩,fun _ => rfl⟩
  exact ⟨hr,(flags_are_soft_forks _ _ _ _ hs he hv).2 _ _ _ hr⟩

end DripCore
