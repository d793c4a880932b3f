import ScriptAnalyzer.Server.Params

/-!
What an editor says that it can do. The server only requires that it is well-formed.
-/

namespace ScriptAnalyzer
namespace Params

open Json Decoder

def flag (name : String) : Field := .optional name boolean

def flags (type : String) (names : List String) : Decoder Unit := record type (names.map flag)

def dynamic : Decoder Unit :=
  flags "struct DynamicRegistrationClientCapabilities" ["dynamicRegistration"]

def refreshable : Decoder Unit := flags "struct RefreshClientCapabilities" ["refreshSupport"]

def registered : Field := flag "dynamicRegistration"

/-- The properties that the editor can ask for later. -/
def resolveSupport : Field :=
  .optional "resolveSupport" (record "struct ResolveSupport" [.required "properties" (list text)])

def kinds : Decoder Unit := record "struct KindCapability" [.optional "valueSet" (list signed32)]

/-- The tags that the editor knows, or whether it knows tags at all. -/
def tagSupport : Field :=
  .defaulted "tagSupport" fun
    | .bool _ => .ok ()
    | j => record "struct TagSupport" [.required "valueSet" (list signed32)] j

def markupKinds (name : String) : Field := .optional name (list markupKind)

/-! The workspace -/

def workspaceEdit : Decoder Unit :=
  record "struct WorkspaceEditClientCapabilities"
    [flag "documentChanges",
      .optional "resourceOperations" (list (oneOf ["create", "rename", "delete"])),
      .optional "failureHandling"
        (oneOf ["abort", "transactional", "textOnlyTransactional", "undo"]),
      flag "normalizesLineEndings",
      .optional "changeAnnotationSupport"
        (flags "struct ChangeAnnotationWorkspaceEditClientCapabilities" ["groupsOnLabel"])]

def workspaceSymbol : Decoder Unit :=
  record "struct WorkspaceSymbolClientCapabilities"
    [registered, .optional "symbolKind" kinds, tagSupport, resolveSupport]

def fileOperations : Decoder Unit :=
  flags "struct WorkspaceFileOperationsClientCapabilities"
    ["dynamicRegistration", "didCreate", "willCreate", "didRename", "willRename", "didDelete",
      "willDelete"]

def workspace : Decoder Unit :=
  record "struct WorkspaceClientCapabilities"
    [flag "applyEdit", .optional "workspaceEdit" workspaceEdit,
      .optional "didChangeConfiguration" dynamic,
      .optional "didChangeWatchedFiles"
        (flags "struct DidChangeWatchedFilesClientCapabilities"
          ["dynamicRegistration", "relativePatternSupport"]),
      .optional "symbol" workspaceSymbol, .optional "executeCommand" dynamic,
      flag "workspaceFolders", flag "configuration", .optional "semanticTokens" refreshable,
      .optional "codeLens" refreshable, .optional "fileOperations" fileOperations,
      .optional "inlineValue" refreshable, .optional "inlayHint" refreshable,
      .optional "diagnostic" refreshable]

/-! Documents -/

def completionItem : Decoder Unit :=
  record "struct CompletionItemCapability"
    [flag "snippetSupport", flag "commitCharactersSupport", markupKinds "documentationFormat",
      flag "deprecatedSupport", flag "preselectSupport", tagSupport, flag "insertReplaceSupport",
      resolveSupport,
      .optional "insertTextModeSupport"
        (record "struct InsertTextModeSupport" [.required "valueSet" (list signed32)]),
      flag "labelDetailsSupport"]

def completionCapability : Decoder Unit :=
  record "struct CompletionClientCapabilities"
    [registered, .optional "completionItem" completionItem, .optional "completionItemKind" kinds,
      flag "contextSupport", .optional "insertTextMode" signed32,
      .optional "completionList"
        (record "struct CompletionListCapability" [.optional "itemDefaults" (list text)])]

def signatureInformation : Decoder Unit :=
  record "struct SignatureInformationSettings"
    [markupKinds "documentationFormat",
      .optional "parameterInformation"
        (flags "struct ParameterInformationSettings" ["labelOffsetSupport"]),
      flag "activeParameterSupport"]

def documentSymbol : Decoder Unit :=
  record "struct DocumentSymbolClientCapabilities"
    [registered, .optional "symbolKind" kinds, flag "hierarchicalDocumentSymbolSupport", tagSupport]

def linked : Decoder Unit :=
  flags "struct GotoCapability" ["dynamicRegistration", "linkSupport"]

def codeAction : Decoder Unit :=
  record "struct CodeActionClientCapabilities"
    [registered,
      .optional "codeActionLiteralSupport" (record "struct CodeActionLiteralSupport"
        [.required "codeActionKind" (record "struct CodeActionKindLiteralSupport"
          [.required "valueSet" (list text)])]),
      flag "isPreferredSupport", flag "disabledSupport", flag "dataSupport", resolveSupport,
      flag "honorsChangeAnnotations"]

def rename : Decoder Unit :=
  record "struct RenameClientCapabilities"
    [registered, flag "prepareSupport", .optional "prepareSupportDefaultBehavior" signed32,
      flag "honorsChangeAnnotations"]

def publishDiagnostics : Decoder Unit :=
  record "struct PublishDiagnosticsClientCapabilities"
    [flag "relatedInformation", tagSupport, flag "versionSupport", flag "codeDescriptionSupport",
      flag "dataSupport"]

def foldingRange : Decoder Unit :=
  record "struct FoldingRangeClientCapabilities"
    [registered, .optional "rangeLimit" unsigned32, flag "lineFoldingOnly",
      .optional "foldingRangeKind" (record "struct FoldingRangeKindCapability"
        [.optional "valueSet" (list (oneOf ["comment", "imports", "region"]))]),
      .optional "foldingRange" (flags "struct FoldingRangeCapability" ["collapsedText"])]

/-- Whether tokens can be asked for a whole document, and only those that changed. -/
def wholeTokens : Decoder Unit :=
  either "SemanticTokensFullOptions" boolean
    (objectFields "struct variant SemanticTokensFullOptions::Delta" [flag "delta"])

def semanticTokens : Decoder Unit :=
  record "struct SemanticTokensClientCapabilities"
    [registered,
      .required "requests" (record "struct SemanticTokensClientCapabilitiesRequests"
        [flag "range", .optional "full" wholeTokens]),
      .required "tokenTypes" (list text), .required "tokenModifiers" (list text),
      .required "formats" (list text), flag "overlappingTokenSupport",
      flag "multilineTokenSupport", flag "serverCancelSupport", flag "augmentsSyntaxTokens"]

def textDocument : Decoder Unit :=
  record "struct TextDocumentClientCapabilities"
    [.optional "synchronization" (flags "struct TextDocumentSyncClientCapabilities"
        ["dynamicRegistration", "willSave", "willSaveWaitUntil", "didSave"]),
      .optional "completion" completionCapability,
      .optional "hover" (record "struct HoverClientCapabilities"
        [registered, markupKinds "contentFormat"]),
      .optional "signatureHelp" (record "struct SignatureHelpClientCapabilities"
        [registered, .optional "signatureInformation" signatureInformation, flag "contextSupport"]),
      .optional "references" dynamic, .optional "documentHighlight" dynamic,
      .optional "documentSymbol" documentSymbol, .optional "formatting" dynamic,
      .optional "rangeFormatting" dynamic, .optional "onTypeFormatting" dynamic,
      .optional "declaration" linked, .optional "definition" linked,
      .optional "typeDefinition" linked, .optional "implementation" linked,
      .optional "codeAction" codeAction, .optional "codeLens" dynamic,
      .optional "documentLink" (flags "struct DocumentLinkClientCapabilities"
        ["dynamicRegistration", "tooltipSupport"]),
      .optional "colorProvider" dynamic, .optional "rename" rename,
      .optional "publishDiagnostics" publishDiagnostics, .optional "foldingRange" foldingRange,
      .optional "selectionRange" dynamic, .optional "linkedEditingRange" dynamic,
      .optional "callHierarchy" dynamic, .optional "semanticTokens" semanticTokens,
      .optional "moniker" dynamic, .optional "typeHierarchy" dynamic,
      .optional "inlineValue" dynamic,
      .optional "inlayHint" (record "struct InlayHintClientCapabilities"
        [registered, resolveSupport]),
      .optional "diagnostic" (flags "struct DiagnosticClientCapabilities"
        ["dynamicRegistration", "relatedDocumentSupport"])]

/-! The editor itself -/

def notebook : Decoder Unit :=
  record "struct NotebookDocumentClientCapabilities"
    [.required "synchronization" (flags "struct NotebookDocumentSyncClientCapabilities"
      ["dynamicRegistration", "executionSummaryReport"])]

def window : Decoder Unit :=
  record "struct WindowClientCapabilities"
    [flag "workDoneProgress",
      .optional "showMessage" (record "struct ShowMessageRequestClientCapabilities"
        [.optional "messageActionItem"
          (flags "struct MessageActionItemCapabilities" ["additionalPropertiesSupport"])]),
      .optional "showDocument" (record "struct ShowDocumentClientCapabilities"
        [.required "support" boolean])]

def general : Decoder Unit :=
  record "struct GeneralClientCapabilities"
    [.optional "regularExpressions" (record "struct RegularExpressionsClientCapabilities"
        [.required "engine" text, .optional "version" text]),
      .optional "markdown" (record "struct MarkdownClientCapabilities"
        [.required "parser" text, .optional "version" text, .optional "allowedTags" (list text)]),
      .optional "staleRequestSupport" (record "struct StaleRequestSupportClientCapabilities"
        [.required "cancel" boolean, .required "retryOnContentModified" (list text)]),
      .optional "positionEncodings" (list text)]

def clientCapabilities : Decoder Unit :=
  record "struct ClientCapabilities"
    [.optional "workspace" workspace, .optional "textDocument" textDocument,
      .optional "notebookDocument" notebook, .optional "window" window,
      .optional "general" general, .optional "experimental" anything]

end Params
end ScriptAnalyzer
