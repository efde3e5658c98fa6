import ServerlessTaint.IssueQuery
import ServerlessTaint.Main
import ServerlessTaint.Proofs.CompleteResolution
import ServerlessTaint.Proofs.ListedIssues
import ServerlessTaint.Proofs.MachineEvents
import ServerlessTaint.Proofs.ReportedIssues
import ServerlessTaint.Proofs.FailedRewrites
import ServerlessTaint.Proofs.ResourceDecisions
import ServerlessTaint.Proofs.RoleStatements
import ServerlessTaint.Proofs.SharedGrants
import ServerlessTaint.Proofs.VariableLookups
import ServerlessTaint.Proofs.UndefinedVariables
import ServerlessTaint.Proofs.UnresolvedReferences
import ServerlessTaint.Proofs.LiteralSubstitution
import ServerlessTaint.Proofs.GuardedResolution
import ServerlessTaint.Proofs.IncludedFiles
import ServerlessTaint.Proofs.HandlerCalls
import ServerlessTaint.Proofs.ForeignCalls
import ServerlessTaint.Proofs.ClientRecords
import ServerlessTaint.Proofs.KeptVariables
import ServerlessTaint.Proofs.ModuleFunctions
import ServerlessTaint.Proofs.OpenedSections
import ServerlessTaint.Proofs.ServiceViews
import ServerlessTaint.Proofs.CopiedModels
import ServerlessTaint.Proofs.EventRules
import ServerlessTaint.Proofs.ResourceNames
