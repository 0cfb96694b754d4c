import RpcBindings.Proofs.Client.Segmentation
import RpcBindings.Proofs.Masked.InCode

/-!
The call site of a method that is found, in its file.

A method is found when its function has a call site (`ClientFile.exists_site`), and the site's tokens
stand in code (`siteInCode`). So the parts of the body between two of them can be masked on their own.
-/

namespace RpcBindings

namespace Masked

/-- The call site of a function, when it has one. -/
def siteOf? (m : Masked) (primitives : List String) (f : FunctionSpan) : Option CallSite := do
  let receiver ← m.receiverAfter? f.head
  let name ← m.nameAfter? receiver.stop
  (m.callSite primitives f name).toOption

theorem siteOf?_eq_some {m : Masked} {primitives : List String} {f : FunctionSpan} {c : CallSite}
    (h : m.siteOf? primitives f = some c) : ∃ receiver name,
      m.receiverAfter? f.head = some receiver ∧ m.nameAfter? receiver.stop = some name ∧
        m.callSite primitives f name = .ok c := by
  obtain ⟨receiver, hreceiver, h⟩ := Option.bind_eq_some_iff.1 h
  obtain ⟨name, hname, h⟩ := Option.bind_eq_some_iff.1 h
  refine ⟨receiver, name, hreceiver, hname, ?_⟩
  cases hsite : m.callSite primitives f name with
  | error e => rw [hsite] at h; exact absurd h nofun
  | ok c' => rw [hsite] at h; exact congrArg _ (Option.some.inj h)

/-- A method that is found is read off the call site of its function. -/
theorem exists_site {m : Masked} {primitives : List String} {f : FunctionSpan} {s : SyncMethod}
    (h : m.readFunction? primitives f = some (.found s)) :
    ∃ receiver c, m.siteOf? primitives f = some c ∧ m.receiverAfter? f.head = some receiver ∧
      m.methodAt? receiver c = some s := by
  obtain ⟨receiver, name, c, hreceiver, hname, hsite, hmethod⟩ := readFunction?_eq_found h
  refine ⟨receiver, c, ?_, hreceiver, hmethod⟩
  unfold siteOf?
  rw [hreceiver, Option.bind_eq_bind, Option.bind_some, hname, Option.bind_eq_bind,
    Option.bind_some, hsite]
  rfl

/-- The parts of a call site that are cut at a token begin and end in code, and in order. -/
structure SiteInCode (m : Masked) (f : FunctionSpan) (c : CallSite) : Prop where
  bodyStart : m.InCode c.bodyStart
  dot : m.InCode c.dot
  args_start : m.InCode c.args.start
  args_stop : m.InCode c.args.stop
  args_end : m.InCode (c.args.stop + 1)
  returnAt : m.InCode c.returnAt
  body_le : c.bodyStart ≤ c.statement
  statement_le : c.statement ≤ c.dot
  dot_lt : c.dot < c.args.start
  args_le : c.args.start ≤ c.args.stop
  args_lt : c.args.stop < c.returnAt
  return_le : c.returnAt + "return".length ≤ f.closed
  closed_lt : f.closed < m.size

/-- The call site of a function of the file stands in code. -/
theorem siteInCode {source : List Char} {primitives : List String} {f : FunctionSpan} {name : Span}
    {c : CallSite} (hf : f ∈ (ofSource .go source).functions)
    (hc : (ofSource .go source).callSite primitives f name = .ok c) :
    SiteInCode (ofSource .go source) f c := by
  obtain ⟨-, -, hopener, hclosed⟩ := mem_functions hf
  obtain ⟨params, hsite⟩ := callSite_eq_ok.1 hc
  obtain ⟨-, hfopens⟩ := bodyOpener?_eq_some hopener
  have hfcloses : (ofSource .go source).hasChar f.closed '\x7d' = true :=
    hasChar_closer (d := .brace) hfopens hclosed
  obtain ⟨offset, hdot, hfirst⟩ := hsite.first_call
  obtain ⟨-, hcall, -⟩ := firstCall?_eq_some hfirst
  obtain ⟨hdotc, hargsc⟩ := call_spec (isPrefixOf_of_byteSlice hcall)
  rw [← hdot] at hdotc hargsc
  have hflt := lt_of_closer? hclosed
  have hargslt := lt_of_closer? hsite.args_closed
  have hreturnlt := hsite.args_before_return
  have hargsstart := hsite.args_start
  have hbody : c.bodyStart = f.opened + 1 := hsite.body_eq
  have hbodydot : f.opened + 1 ≤ c.dot := by
    rw [hdot]
    exact Nat.le_add_right _ _
  obtain ⟨hstle, hlest, -⟩ := statementStart_spec (ofSource .go source) hbodydot
  have hst : c.statement = (ofSource .go source).statementStart (f.opened + 1) c.dot :=
    hsite.statement_eq
  rw [← hst] at hstle hlest
  obtain ⟨-, hretstop, -, hretword, -⟩ :=
    return_spec hfopens hfcloses (cutsAt_of_hasChar hfopens (by decide) (by decide)).2
      (cutsAt_of_hasChar hfcloses (by decide) (by decide)).1 (by omega) hsite.return_at
  have hlen : "return".length = 6 := rfl
  have hret : (ofSource .go source).hasChar c.returnAt 'r' = true :=
    hasChar_of_wordAt (k := 0) hretword rfl
  have hopen := inCode_of_hasChar hfopens (by decide) (by omega)
  have hargs := inCode_of_hasChar hargsc (by decide) (by omega)
  have hargs' := inCode_of_hasChar (hasChar_closer (d := .paren) hargsc hsite.args_closed)
    (by decide) (by omega)
  exact {
    bodyStart := hbody ▸ hopen.2
    dot := (inCode_of_hasChar hdotc (by decide) (by omega)).1
    args_start := hargsstart ▸ hargs.2
    args_stop := hargs'.1
    args_end := hargs'.2
    returnAt := (inCode_of_hasChar hret (by decide) (by omega)).1
    body_le := by omega
    statement_le := hlest
    dot_lt := by omega
    args_le := by omega
    args_lt := hreturnlt
    return_le := hretstop
    closed_lt := hflt.2 }

end Masked

namespace ClientFile

/-- A method that is found in a client file is read off the call site of its function. -/
theorem exists_site {options : ClientOptions} {source : String} {file : ClientFile} {k : Nat}
    {g : ClientFunction} {s : SyncMethod} (hfile : ClientFile.read? options source = some file)
    (hg : file.functions[k]? = some g) (hs : g.outcome = .found s) :
    ∃ f receiver c, (Masked.ofSource .go source.toList).functions[k]? = some f ∧
      (Masked.ofSource .go source.toList).siteOf? options.primitives f = some c ∧
      (Masked.ofSource .go source.toList).receiverAfter? f.head = some receiver ∧
      (Masked.ofSource .go source.toList).methodAt? receiver c = some s := by
  obtain ⟨f, o, hf, ho, hout⟩ := ClientFile.getElem?_functions hfile hg
  obtain rfl := Masked.found_of_ofType (hout.symm.trans hs)
  obtain ⟨receiver, c, hc, hreceiver, hmethod⟩ := Masked.exists_site ho
  exact ⟨f, receiver, c, hf, hc, hreceiver, hmethod⟩

end ClientFile

end RpcBindings
