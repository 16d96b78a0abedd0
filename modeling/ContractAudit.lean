import ContractAudit.Description.Error
import ContractAudit.Main
import ContractAudit.Proofs.ScanGate
import ContractAudit.Proofs.PoolSize
import ContractAudit.Proofs.Verdicts
import ContractAudit.Proofs.Rewriting
import ContractAudit.Proofs.Reindentation
import ContractAudit.Proofs.SharedLog
import ContractAudit.Proofs.CsvReading
import ContractAudit.Proofs.HtmlEscaping
import ContractAudit.Proofs.Removal
import ContractAudit.Proofs.NormalPaths
import ContractAudit.Proofs.PlainParsing
import ContractAudit.Proofs.Nesting
import ContractAudit.Proofs.ReportKeys
import ContractAudit.Proofs.RuleSetups
import ContractAudit.Proofs.ExitClasses
import ContractAudit.Proofs.Crew
import ContractAudit.Proofs.Reproduction
import ContractAudit.Proofs.StopReasons
import ContractAudit.Proofs.StoredSettings
import ContractAudit.Proofs.SourceDiscovery
import ContractAudit.Proofs.MarkdownStructure
import ContractAudit.Proofs.GeneratedInputs
import ContractAudit.Proofs.Grouping
import ContractAudit.Proofs.Chunks
